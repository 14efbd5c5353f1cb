import NeoLoader.MuleUpload

/-!
# Blocks that peers of three networks are sent

A BitTorrent peer requests a piece with an offset and a length, a Neo peer an offset and a length,
and an eMule peer three ranges. Only the last handler looks at the part map before it reads.
-/

namespace NeoLoader.BlockAdmission

open StepFunction RangeMap PartStates FileReads MuleUpload

structure CTorrentInfo where
  /-- `GetPieceLength`. -/
  pieceLength : ℕ
  isMerkle : Bool
  /-- `GetTotalLength`. -/
  totalLength : ℕ
  /-- The pieces are not empty. -/
  pieceLength_pos : 0 < pieceLength

/-- What a BitTorrent peer supports, with the hashes that go with a piece. -/
structure TorrentPeer where
  supportsFAST : Bool
  /-- `m_Tr_hashpiece_Extension`. -/
  hashpieceExtension : Bool
  /-- There is a hash tree. -/
  hasTree : Bool
  /-- The encoded hashes of `GetLeafs`. -/
  getLeafs : ℕ → ℕ → Option (List UInt8)

/-- A packet that is sent to a BitTorrent peer. -/
inductive TorrentPacket
  /-- `eRejectRequest`. -/
  | rejectRequest (index offset length : ℕ)
  /-- `ePiece`. -/
  | piece (index offset : ℕ) (data : List UInt8)
  /-- `eExtended` or `eExtension_Tr_hashpiece`. -/
  | hashPiece (bExtended : Bool) (index offset : ℕ) (leafs data : List UInt8)
  deriving DecidableEq, Repr

/-- The data of a packet. -/
def TorrentPacket.data : TorrentPacket → List UInt8
  | .rejectRequest _ _ _ => []
  | .piece _ _ data => data
  | .hashPiece _ _ _ _ data => data

/-- `CTorrentClient::RejectRequest`, if it is supported. -/
def rejectRequest (peer : TorrentPeer) (index offset length : ℕ) : List TorrentPacket :=
  if peer.supportsFAST then [.rejectRequest (index % 2 ^ 32) (offset % 2 ^ 32) (length % 2 ^ 32)] else []

/-- `CTorrentClient::ProcessBlockRequest`, packets that are sent, or the range that is read. -/
def processTorrentRequest (peer : TorrentPeer) (info : CTorrentInfo) (active : Bool)
    (index offset length : ℕ) : List TorrentPacket ⊕ (ℕ × ℕ) :=
  if !active then .inl (rejectRequest peer index offset length)
  else .inr ((index * info.pieceLength + offset) % 2 ^ 64, length)

/-- The packets with a piece of a torrent with a tree of hashes. -/
def hashPiecePackets (peer : TorrentPeer) (info : CTorrentInfo) (index offset length : ℕ)
    (data : List UInt8) : List TorrentPacket :=
  if offset ≠ 0 then [.hashPiece peer.hashpieceExtension index (offset % 2 ^ 32) [] data]
  else if !peer.hasTree then []
  else
    match peer.getLeafs (index * info.pieceLength)
        (min (index * info.pieceLength + info.pieceLength) info.totalLength) with
    | none => rejectRequest peer index offset length
    | some leafs => [.hashPiece peer.hashpieceExtension index (offset % 2 ^ 32) leafs data]

/-- `CTorrentClient::OnDataRead`. -/
def onTorrentDataRead (peer : TorrentPeer) (info : CTorrentInfo) (active : Bool) (uBegin length : ℕ)
    (read : List UInt8 × Bool) : List TorrentPacket :=
  let index := uBegin / info.pieceLength % 2 ^ 32
  let offset := uBegin % info.pieceLength
  if !active then []
  else if !read.2 then rejectRequest peer index offset length
  else if info.isMerkle then hashPiecePackets peer info index offset length read.1
  else [.piece index (offset % 2 ^ 32) read.1]

/-- The packets in answer to a request, with the disk when it is read. -/
def torrentAnswer (peer : TorrentPeer) (info : CTorrentInfo) (activeThen activeNow : Bool) (disk : Disk)
    (index offset length : ℕ) : List TorrentPacket :=
  match processTorrentRequest peer info activeThen index offset length with
  | .inl packets => packets
  | .inr (uBegin, uLength) => onTorrentDataRead peer info activeNow uBegin uLength (execute disk uBegin uLength)

/-- A packet that is sent to a Neo peer. -/
inductive NeoPacket
  /-- `RR`. -/
  | rejected (uOffset uLength : ℕ)
  /-- `DB`. -/
  | dataBlock (uOffset : ℕ) (data : List UInt8)
  deriving DecidableEq, Repr

/-- The data of a packet. -/
def NeoPacket.data : NeoPacket → List UInt8
  | .rejected _ _ => []
  | .dataBlock _ data => data

/-- `CNeoClient::ProcessBlockRequest`, a packet that is sent, or the range that is read. -/
def processNeoRequest (active : Bool) (uOffset uLength : ℕ) : NeoPacket ⊕ (ℕ × ℕ) :=
  if !active then .inl (.rejected uOffset uLength) else .inr (uOffset, uLength)

/-- `CNeoClient::OnDataRead`. -/
def onNeoDataRead (uOffset : ℕ) (read : List UInt8 × Bool) : NeoPacket := .dataBlock uOffset read.1

/-- The packet in answer to a request, with the disk when it is read. -/
def neoAnswer (active : Bool) (disk : Disk) (uOffset uLength : ℕ) : NeoPacket :=
  match processNeoRequest active uOffset uLength with
  | .inl packet => packet
  | .inr (uOffset, uLength) => onNeoDataRead uOffset (execute disk uOffset uLength)

/-- All bytes of a range are inside the file and available. -/
def AllAvailable (pFile : CFile) (uBegin uLength : ℕ) : Prop :=
  ∀ x, uBegin ≤ x → x < uBegin + uLength → pFile.Available x

/-- The data sent in answer to a request is of available bytes, and none is sent unless all bytes
that were requested are available. -/
structure Admitted (pFile : CFile) (uBegin uLength uOffset : ℕ) (data : List UInt8) : Prop where
  /-- The data is of available bytes. -/
  available : AllAvailable pFile uOffset data.length
  /-- No other data is sent. -/
  rejected : ¬AllAvailable pFile uBegin uLength → data = []

/-- The first byte of a piece of a torrent with a tree of hashes can be sent with its hashes. -/
def HashesFound (peer : TorrentPeer) (info : CTorrentInfo) (uBegin : ℕ) : Prop :=
  let uFrom := uBegin / info.pieceLength % 2 ^ 32 * info.pieceLength
  info.isMerkle = true → uBegin % info.pieceLength = 0 → peer.hasTree = true ∧
    (peer.getLeafs uFrom (min (uFrom + info.pieceLength) info.totalLength)).isSome

/-- A BitTorrent request is not served, or all its bytes are available. -/
def TorrentFits (pFile : CFile) (peer : TorrentPeer) (info : CTorrentInfo) (activeThen activeNow : Bool)
    (disk : Disk) (index offset length : ℕ) : Prop :=
  let uBegin := (index * info.pieceLength + offset) % 2 ^ 64
  activeThen = true → activeNow = true → 0 < length → Readable disk uBegin length →
    HashesFound peer info uBegin → AllAvailable pFile (index * info.pieceLength + offset) length

/-- A Neo request is not served, or all its bytes are available. -/
def NeoFits (pFile : CFile) (active : Bool) (disk : Disk) (uOffset uLength : ℕ) : Prop :=
  active = true → 0 < resizeLength uLength → (∃ content ∈ disk, uOffset < content.length) →
    AllAvailable pFile uOffset uLength

/-- The blocks that are read for an eMule request are available, and no other data is queued. -/
def MuleAdmitted (pFile : CFile) (disk : Disk) (hash : ℕ) (blocks : List (ℕ × ℕ)) (c : CMuleClient) : Prop :=
  ∀ op ∈ (processBlockRequest hash (some pFile) blocks c).reads, op ∈ c.reads ∨
    ∀ (peer : Peer) (slow : Bool) (c' : CMuleClient),
      ∀ entry ∈ (onDataRead peer slow op.block (execute disk op.uOffset op.uLength).1 c').queue,
        entry ∈ c'.queue ∨ Admitted pFile op.uOffset op.uLength op.uOffset (execute disk op.uOffset op.uLength).1 ∧
          AllAvailable pFile op.uOffset op.uLength

section Torrent

variable {pFile : CFile} {peer : TorrentPeer} {info : CTorrentInfo} {activeThen activeNow : Bool} {disk : Disk}
  {index offset length : ℕ}

theorem data_rejectRequest (peer : TorrentPeer) (index offset length : ℕ) :
    (rejectRequest peer index offset length).flatMap TorrentPacket.data = [] := by
  unfold rejectRequest
  split_ifs <;> rfl

theorem data_hashPiecePackets (peer : TorrentPeer) (uBegin length : ℕ) (data : List UInt8)
    (hmerkle : info.isMerkle = true) :
    ((hashPiecePackets peer info (uBegin / info.pieceLength % 2 ^ 32) (uBegin % info.pieceLength) length
        data).flatMap TorrentPacket.data = data ∨ ¬HashesFound peer info uBegin) ∧
      (HashesFound peer info uBegin ∨
        (hashPiecePackets peer info (uBegin / info.pieceLength % 2 ^ 32) (uBegin % info.pieceLength) length
          data).flatMap TorrentPacket.data = []) := by
  unfold hashPiecePackets HashesFound
  by_cases hoffset : uBegin % info.pieceLength = 0
  · rw [if_neg (not_not.mpr hoffset)]
    cases htree : peer.hasTree with
    | false =>
      refine ⟨Or.inr fun h => ?_, Or.inr rfl⟩
      cases (h hmerkle hoffset).1
    | true =>
      rw [Bool.not_true, if_neg Bool.false_ne_true]
      cases hleafs : peer.getLeafs (uBegin / info.pieceLength % 2 ^ 32 * info.pieceLength)
          (min (uBegin / info.pieceLength % 2 ^ 32 * info.pieceLength + info.pieceLength) info.totalLength) with
      | none =>
        refine ⟨Or.inr fun h => ?_, Or.inr (data_rejectRequest _ _ _ _)⟩
        have hsome := (h hmerkle hoffset).2
        rw [hleafs] at hsome
        cases hsome
      | some leafs => exact ⟨Or.inl (List.append_nil data), Or.inl fun _ _ => ⟨rfl, by rw [hleafs]; rfl⟩⟩
  · rw [if_pos hoffset]
    exact ⟨Or.inl (List.append_nil data), Or.inl fun _ hzero => absurd hzero hoffset⟩

/-- The data of a piece that was read: all of it, or none. -/
theorem data_onTorrentDataRead (peer : TorrentPeer) (info : CTorrentInfo) (activeNow : Bool) (uBegin length : ℕ)
    (read : List UInt8 × Bool) : (activeNow = true → read.2 = true → HashesFound peer info uBegin →
      (onTorrentDataRead peer info activeNow uBegin length read).flatMap TorrentPacket.data = read.1) ∧
    (¬(activeNow = true ∧ read.2 = true ∧ HashesFound peer info uBegin) →
      (onTorrentDataRead peer info activeNow uBegin length read).flatMap TorrentPacket.data = []) := by
  unfold onTorrentDataRead
  dsimp only
  cases activeNow with
  | false => exact ⟨fun hfalse => (Bool.false_ne_true hfalse).elim, fun _ => rfl⟩
  | true =>
    rw [Bool.not_true, if_neg Bool.false_ne_true]
    cases hread : read.2 with
    | false => exact ⟨fun _ hfalse => (Bool.false_ne_true hfalse).elim, fun _ => data_rejectRequest _ _ _ _⟩
    | true =>
      rw [Bool.not_true, if_neg Bool.false_ne_true]
      cases hmerkle : info.isMerkle with
      | false =>
        rw [if_neg Bool.false_ne_true]
        refine ⟨fun _ _ _ => List.append_nil _, fun hnot => (hnot ⟨rfl, rfl, fun htrue => ?_⟩).elim⟩
        rw [hmerkle] at htrue
        cases htrue
      | true =>
        obtain ⟨hsent, hnone⟩ := data_hashPiecePackets peer uBegin length read.1 hmerkle
        rw [if_pos rfl]
        exact ⟨fun _ _ hfound => hsent.resolve_right (not_not.mpr hfound),
          fun hnot => hnone.resolve_left fun hfound => hnot ⟨rfl, rfl, hfound⟩⟩

/-- The data that is sent in answer to a BitTorrent request. -/
def torrentData (peer : TorrentPeer) (info : CTorrentInfo) (activeThen activeNow : Bool) (disk : Disk)
    (index offset length : ℕ) : List UInt8 :=
  (torrentAnswer peer info activeThen activeNow disk index offset length).flatMap TorrentPacket.data

/-- All data of a request is sent, or none. -/
theorem torrentData_spec (peer : TorrentPeer) (info : CTorrentInfo) (activeThen activeNow : Bool) (disk : Disk)
    (index offset : ℕ) (hlength : length < 2 ^ 32) :
    (activeThen = true → activeNow = true → Readable disk ((index * info.pieceLength + offset) % 2 ^ 64) length →
      HashesFound peer info ((index * info.pieceLength + offset) % 2 ^ 64) →
      (torrentData peer info activeThen activeNow disk index offset length).length = length) ∧
    (torrentData peer info activeThen activeNow disk index offset length ≠ [] →
      activeThen = true ∧ activeNow = true ∧ 0 < length ∧
        Readable disk ((index * info.pieceLength + offset) % 2 ^ 64) length ∧
        HashesFound peer info ((index * info.pieceLength + offset) % 2 ^ 64)) := by
  unfold torrentData torrentAnswer processTorrentRequest
  cases activeThen with
  | false =>
    have hnone := data_rejectRequest peer index offset length
    exact ⟨fun hfalse => (Bool.false_ne_true hfalse).elim, fun hne => absurd hnone hne⟩
  | true =>
    rw [Bool.not_true, if_neg Bool.false_ne_true]
    dsimp only
    generalize (index * info.pieceLength + offset) % 2 ^ 64 = uBegin
    obtain ⟨hsent, hnone⟩ := data_onTorrentDataRead peer info activeNow uBegin length (execute disk uBegin length)
    constructor
    · intro _ hactive hread hfound
      obtain ⟨content, -, -, hexecute, hcount⟩ := hread.execute_spec
      rw [hsent hactive (by rw [hexecute]) hfound, hcount]
    · intro hne
      by_cases hserved : activeNow = true ∧ (execute disk uBegin length).2 = true ∧ HashesFound peer info uBegin
      · obtain ⟨hactive, hok, hfound⟩ := hserved
        rw [hsent hactive hok hfound] at hne
        obtain ⟨hread, hpos⟩ := readable_of_execute hlength hok hne
        exact ⟨rfl, hactive, hpos, hread, hfound⟩
      · exact absurd (hnone hserved) hne

theorem admitted_of_available {uBegin uLength : ℕ} {data : List UInt8} (h : AllAvailable pFile uBegin uLength)
    (hdata : data.length ≤ uLength) : Admitted pFile uBegin uLength uBegin data :=
  ⟨fun x hle hlt => h x hle (by omega), fun hnot => absurd h hnot⟩

theorem admitted_nil (pFile : CFile) (uBegin uLength uOffset : ℕ) : Admitted pFile uBegin uLength uOffset [] :=
  ⟨fun _ hle hlt => absurd hlt (not_lt.mpr hle), fun _ => rfl⟩

/-- The data of a BitTorrent request is admitted if and only if the request is not served, or all
its bytes are available. -/
theorem torrentData_iff (hlength : length < 2 ^ 32) :
    Admitted pFile (index * info.pieceLength + offset) length ((index * info.pieceLength + offset) % 2 ^ 64)
        (torrentData peer info activeThen activeNow disk index offset length) ↔
      TorrentFits pFile peer info activeThen activeNow disk index offset length := by
  obtain ⟨hall, hserved⟩ := torrentData_spec peer info activeThen activeNow disk index offset hlength
  constructor
  · intro h hthen hnow hpos hread hfound
    by_contra hnot
    have hcount := hall hthen hnow hread hfound
    rw [h.rejected hnot] at hcount
    exact absurd hcount hpos.ne
  · intro h
    by_cases hnone : torrentData peer info activeThen activeNow disk index offset length = []
    · rw [hnone]
      exact admitted_nil _ _ _ _
    · obtain ⟨hthen, hnow, hpos, hread, hfound⟩ := hserved hnone
      have havailable := h hthen hnow hpos hread hfound
      have hfirst := (havailable _ le_rfl (by omega)).1
      have hsize := pFile.size_lt
      have hcount := hall hthen hnow hread hfound
      rw [Nat.mod_eq_of_lt (hfirst.trans (hsize.trans (by decide)))]
      exact admitted_of_available havailable hcount.le

end Torrent

section Neo

variable {pFile : CFile} {active : Bool} {disk : Disk} {uOffset uLength : ℕ}

/-- The data of a Neo request is admitted if and only if the request is not served, or all its
bytes are available. -/
theorem neoData_iff (hdisk : DiskFits disk pFile.uFileSize) :
    Admitted pFile uOffset uLength uOffset (neoAnswer active disk uOffset uLength).data ↔
      NeoFits pFile active disk uOffset uLength := by
  cases active with
  | false => exact iff_of_true (admitted_nil _ _ _ _) fun hfalse => (Bool.false_ne_true hfalse).elim
  | true =>
    change Admitted pFile uOffset uLength uOffset (execute disk uOffset uLength).1 ↔ _
    have hle := length_execute_le disk uOffset uLength
    constructor
    · rintro h - hpos ⟨content, hcontent, hlt⟩
      by_contra hnot
      have hdata := h.rejected hnot
      obtain rfl := Option.mem_def.mp hcontent
      have hsize := hdisk content rfl
      have hcount := congrArg List.length hdata
      rw [execute_eq content (by have := pFile.size_lt; omega), List.length_take, List.length_drop,
        List.length_nil] at hcount
      omega
    · intro h
      by_cases hnone : (execute disk uOffset uLength).1 = []
      · rw [hnone]
        exact admitted_nil _ _ _ _
      · obtain ⟨hpos, hcontent⟩ := execute_ne_nil hnone
        exact admitted_of_available (h rfl hpos hcontent) hle.1

end Neo

section Mule

variable {pFile : CFile} {disk : Disk} {hash : ℕ}

/-- The reads that are queued for a request are for blocks that are not missing. -/
theorem blockLoop_reads {blocks : List (ℕ × ℕ)} {c : CMuleClient} {op : ReadOperation}
    (hop : op ∈ (blockLoop pFile hash blocks c).reads) :
    op ∈ c.reads ∨ op.uOffset = op.block.uBegin ∧ op.uLength = op.block.uEnd - op.block.uBegin ∧
      op.block.uBegin < op.block.uEnd ∧ pFile.isMissing op.block.uBegin op.block.uEnd = false := by
  induction blocks generalizing c with
  | nil => exact Or.inl hop
  | cons first rest ih =>
    obtain ⟨uBegin, uEnd⟩ := first
    rw [blockLoop] at hop
    by_cases hempty : uEnd ≤ uBegin
    · rw [if_pos hempty] at hop
      exact ih hop
    rw [if_neg hempty] at hop
    cases hfind : c.m_OutgoingBlocks.find? (sameOffsets uBegin uEnd) with
    | some block =>
      rw [hfind] at hop
      exact ih (c := keepTrack hash uBegin uEnd block c) hop
    | none =>
      rw [hfind] at hop
      dsimp only at hop
      by_cases hmissing : pFile.isMissing uBegin uEnd = true
      · rw [if_pos hmissing] at hop
        exact Or.inl hop
      · rw [if_neg hmissing] at hop
        rcases ih hop with hold | hnew
        · rcases List.mem_append.mp hold with hbefore | hadded
          · exact Or.inl hbefore
          · rw [List.mem_singleton.mp hadded]
            exact Or.inr ⟨rfl, rfl, not_le.mp hempty, Bool.eq_false_iff.mpr hmissing⟩
        · exact Or.inr hnew

theorem queue_onDataRead {peer : Peer} {slow : Bool} {block : SPendingBlock} {data : List UInt8}
    {c : CMuleClient} {entry : ℕ × PartPacket} (hentry : entry ∈ (onDataRead peer slow block data c).queue) :
    entry ∈ c.queue ∨ data.length = block.uEnd - block.uBegin := by
  unfold onDataRead at hentry
  split_ifs at hentry with hactive hkept hcount
  · exact Or.inl hentry
  · exact Or.inl hentry
  · cases hentry
  · exact Or.inr (not_not.mp hcount)

/-- The data of an eMule request is admitted. -/
theorem muleAdmitted (hdisk : DiskFits disk pFile.uFileSize) (blocks : List (ℕ × ℕ)) (c : CMuleClient) :
    MuleAdmitted pFile disk hash blocks c := by
  intro op hop
  have hreads : op ∈ c.reads ∨ op.uOffset = op.block.uBegin ∧ op.uLength = op.block.uEnd - op.block.uBegin ∧
      op.block.uBegin < op.block.uEnd ∧ pFile.isMissing op.block.uBegin op.block.uEnd = false := by
    unfold processBlockRequest at hop
    dsimp only at hop
    split_ifs at hop with hactive
    · exact blockLoop_reads (c := noteRequest pFile hash blocks c) hop
    · exact Or.inl hop
  refine hreads.imp_right fun ⟨hoffset, hlength, hlt, hpresent⟩ peer slow c' entry hentry => ?_
  refine (queue_onDataRead hentry).imp_right fun hcount => ?_
  have hne : (execute disk op.uOffset op.uLength).1 ≠ [] := by
    intro hnil
    rw [hnil, List.length_nil] at hcount
    omega
  have havailable : AllAvailable pFile op.uOffset op.uLength := by
    cases hcontent : disk with
    | none =>
      rw [hcontent] at hne
      exact absurd rfl hne
    | some content =>
      have hend := (length_execute_le disk op.uOffset op.uLength).2 content hcontent hne
      have hsize := hdisk content hcontent
      intro x hle hx
      exact (isMissing_eq_false_iff pFile hlt (by omega)).mp hpresent x (by omega) (by omega)
  exact ⟨admitted_of_available havailable (length_execute_le _ _ _).1, havailable⟩

end Mule

/-- The data that is sent in answer to a request of a BitTorrent or Neo peer is admitted if and
only if the request is not served or all its bytes are available; the data sent in answer to the
request of an eMule peer always is. -/
theorem admission_iff {pFile : CFile} {disk : Disk} (hdisk : DiskFits disk pFile.uFileSize) :
    (∀ (peer : TorrentPeer) (info : CTorrentInfo) (activeThen activeNow : Bool) (index offset length : UInt32),
      Admitted pFile (index.toNat * info.pieceLength + offset.toNat) length.toNat
          ((index.toNat * info.pieceLength + offset.toNat) % 2 ^ 64)
          (torrentData peer info activeThen activeNow disk index.toNat offset.toNat length.toNat) ↔
        TorrentFits pFile peer info activeThen activeNow disk index.toNat offset.toNat length.toNat) ∧
    (∀ (active : Bool) (uOffset : UInt64) (uLength : UInt32), Admitted pFile uOffset.toNat uLength.toNat uOffset.toNat
          (neoAnswer active disk uOffset.toNat uLength.toNat).data ↔
        NeoFits pFile active disk uOffset.toNat uLength.toNat) ∧
    ∀ (hash : ℕ) (blocks : List (ℕ × ℕ)) (c : CMuleClient), MuleAdmitted pFile disk hash blocks c :=
  ⟨fun _ _ _ _ _ _ length => torrentData_iff length.toNat_lt, fun _ _ _ => neoData_iff hdisk,
    fun _ blocks c => muleAdmitted hdisk blocks c⟩

/-- A complete file of a hundred bytes. -/
theorem admission_iff_complete :
    (∀ (peer : TorrentPeer) (info : CTorrentInfo) (activeThen activeNow : Bool) (index offset length : UInt32),
      Admitted exampleFile (index.toNat * info.pieceLength + offset.toNat) length.toNat
          ((index.toNat * info.pieceLength + offset.toNat) % 2 ^ 64)
          (torrentData peer info activeThen activeNow (some (List.replicate 100 0)) index.toNat offset.toNat
            length.toNat) ↔
        TorrentFits exampleFile peer info activeThen activeNow (some (List.replicate 100 0)) index.toNat
          offset.toNat length.toNat) ∧
    (∀ (active : Bool) (uOffset : UInt64) (uLength : UInt32),
      Admitted exampleFile uOffset.toNat uLength.toNat uOffset.toNat
          (neoAnswer active (some (List.replicate 100 0)) uOffset.toNat uLength.toNat).data ↔
        NeoFits exampleFile active (some (List.replicate 100 0)) uOffset.toNat uLength.toNat) ∧
    ∀ (hash : ℕ) (blocks : List (ℕ × ℕ)) (c : CMuleClient),
      MuleAdmitted exampleFile (some (List.replicate 100 0)) hash blocks c :=
  admission_iff fun content hcontent => by
    obtain rfl := Option.some.inj hcontent
    exact List.length_replicate.le

/-- A BitTorrent and a Neo peer are sent the missing bytes of an incomplete file, and a Neo peer is
sent data in answer to a request that goes past the end of a complete one. -/
theorem admission_wrong : ¬Admitted exampleIncomplete (0 * 50 + 0) 10 ((0 * 50 + 0) % 2 ^ 64)
      (torrentData ⟨true, false, false, fun _ _ => none⟩ ⟨50, false, 100, by decide⟩ true true
        (some (List.replicate 100 0)) 0 0 10) ∧
    ¬Admitted exampleIncomplete 0 10 0 (neoAnswer true (some (List.replicate 100 0)) 0 10).data ∧
    ¬Admitted exampleFile 90 20 90 (neoAnswer true (some (List.replicate 100 0)) 90 20).data := by
  have hmissing : ¬exampleIncomplete.Available 0 := by
    rintro ⟨-, h⟩
    exact h rfl _ rfl (by decide)
  refine ⟨fun h => hmissing (h.available 0 le_rfl (by decide)),
    fun h => hmissing (h.available 0 le_rfl (by decide)), fun h => ?_⟩
  have hdata := h.rejected fun hall => absurd (hall 105 (by decide) (by decide)).1 (by decide)
  revert hdata
  decide

end NeoLoader.BlockAdmission
