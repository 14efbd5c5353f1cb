import NeoLoader.BlockAdmission
import NeoLoader.BlockRequests

/-!
# Requests of one peer, answered by another

What a peer waits for fits into the file, so a peer that has the file sends it, and no request is left.
-/

namespace NeoLoader.BlockExchange

open RangeMap PartStates FileReads BlockRequests BlockAdmission
open TransferReservation (SRequestedBlock)

/-- The block of a packet, which `ProcessBlock` looks up. -/
def receivedBlock : TorrentPacket → Option SRequestedBlock
  | .piece index offset data => some ⟨index, offset, data.length⟩
  | _ => none

/-- What a peer that has the file sends for the blocks. -/
def answers (seed : TorrentPeer) (info : CTorrentInfo) (content : List UInt8) (blocks : List SRequestedBlock) :
    List TorrentPacket :=
  blocks.flatMap fun block => torrentAnswer seed info true true (some content) block.index block.offset block.length

/-- A block that comes leaves the list, and no block gets into it. -/
theorem incomingBlocks_processBlock {uPieceSize : ℕ} {block : SRequestedBlock} {bComplete bActive : Bool}
    {peer peer' : CTorrentPeer} (h : processBlock uPieceSize block bComplete bActive peer = some peer') :
    peer'.incomingBlocks ⊆ peer.incomingBlocks.filter (· ≠ block) := by
  unfold processBlock rangeReceived at h
  by_cases hm : block ∈ peer.incomingBlocks
  · rw [if_neg (not_not_intro hm)] at h
    repeat' split at h
    any_goals cases h
    any_goals exact List.Subset.refl _
    -- Cancelling the range takes further blocks out.
    obtain ⟨r, -, rfl⟩ := Option.map_eq_some_iff.mp h
    exact List.filter_sublist.subset
  · rw [if_pos hm, Option.some_inj] at h
    subst h
    exact fun other ho => List.mem_filter.mpr ⟨ho, decide_eq_true fun heq => hm (heq ▸ ho)⟩

section Exchange

variable {N : ℕ} (hN : N < 2 ^ 63) {info : CTorrentInfo} (hpieces : N ≤ 2 ^ 32 * info.pieceLength)
  (hlength : min info.pieceLength N ≤ 2 ^ 32) (hplain : info.isMerkle = false) {content : List UInt8}
  (hcontent : content.length = N) (seed : TorrentPeer)

include hN

/-- When all blocks that a peer waits for come, it waits for none. -/
theorem run_drains (bComplete bActive : SRequestedBlock → Bool) {blocks : List SRequestedBlock} {peer : CTorrentPeer}
    (h : PeerOk info.pieceLength N peer) (hblocks : peer.incomingBlocks ⊆ blocks) :
    ∃ peer', run info.pieceLength peer (blocks.map fun block => .block block (bComplete block) (bActive block)) =
      some peer' ∧ peer'.incomingBlocks = [] := by
  induction blocks generalizing peer with
  | nil => exact ⟨peer, rfl, List.subset_nil.mp hblocks⟩
  | cons block blocks ih =>
    obtain ⟨peer', hstep, hok⟩ := processBlock_ok h (hN.trans (by decide)) block (bComplete block) (bActive block)
    have hleft := incomingBlocks_processBlock hstep
    rw [List.map_cons, run, step, hstep, Option.bind_some]
    refine ih hok fun other ho => ?_
    obtain ⟨hm, hne⟩ := List.mem_filter.mp (hleft ho)
    exact (List.mem_cons.mp (hblocks hm)).resolve_left (of_decide_eq_true hne)

include hpieces hlength hplain hcontent

/-- A block that fits is sent. -/
theorem torrentAnswer_fits {block : SRequestedBlock} (h : Fits info.pieceLength N block) :
    torrentAnswer seed info true true (some content) block.index block.offset block.length =
      [.piece block.index block.offset ((content.drop (blockBegin info.pieceLength block)).take block.length)] := by
  obtain ⟨hpos, hle, hin, hend⟩ := h
  unfold blockEnd blockBegin at *
  have hpiece := info.pieceLength_pos
  have hbelow : block.index * info.pieceLength < 2 ^ 32 * info.pieceLength := by omega
  have hindex : block.index < 2 ^ 32 := lt_of_mul_lt_mul_right hbelow hpiece.le
  have hoffset : block.offset < info.pieceLength := by omega
  have hwire : block.offset % 2 ^ 32 = block.offset := Nat.mod_eq_of_lt (by omega)
  generalize hbegin : block.index * info.pieceLength + block.offset = uBegin at *
  have hdiv : uBegin / info.pieceLength = block.index := by
    rw [← hbegin, Nat.mul_comm, Nat.mul_add_div hpiece, Nat.div_eq_of_lt hoffset, Nat.add_zero]
  have hmod : uBegin % info.pieceLength = block.offset := by
    rw [← hbegin, Nat.mul_comm, Nat.mul_add_mod, Nat.mod_eq_of_lt hoffset]
  have hread : Readable (some content) uBegin block.length := ⟨by omega, by omega, content, rfl, by omega⟩
  obtain ⟨_, ⟨⟩, -, hexecute, -⟩ := hread.execute_spec
  have hwrap : uBegin % 2 ^ 64 = uBegin := Nat.mod_eq_of_lt (by omega)
  rw [torrentAnswer, processTorrentRequest, Bool.not_true, if_neg Bool.false_ne_true, hbegin, hwrap]
  dsimp only
  rw [onTorrentDataRead, hexecute, hdiv, hmod, hwire, hplain, Nat.mod_eq_of_lt hindex]
  rfl

/-- The blocks that fit are received as they were asked for. -/
theorem receivedBlock_answers {blocks : List SRequestedBlock}
    (h : ∀ block ∈ blocks, Fits info.pieceLength N block) :
    (answers seed info content blocks).filterMap receivedBlock = blocks := by
  induction blocks with
  | nil => rfl
  | cons block blocks ih =>
    obtain ⟨hblock, hblocks⟩ := List.forall_mem_cons.mp h
    have hsize : ((content.drop (blockBegin info.pieceLength block)).take block.length).length = block.length := by
      have hend := hblock.in_file
      unfold blockEnd at hend
      rw [List.length_take, List.length_drop]
      omega
    rw [answers, List.flatMap_cons, torrentAnswer_fits hN hpieces hlength hplain hcontent seed hblock,
      List.filterMap_append, ← answers, ih hblocks, List.filterMap_cons, receivedBlock, hsize]
    rfl

/-- In every run in which no cancelled range cuts an outstanding block, a peer that has the file sends all blocks that
are waited for: when they have come, whatever becomes of them, none is waited for. -/
theorem requests_answered {fileParts : CRangeMap SPartRange} (hparts : Canonical partMapOps N fileParts)
    (uRequestVolume : ℕ) {events : List Event} (hr : ∀ event ∈ events, event.Received N)
    (hm : MeetsAll info.pieceLength (.new N fileParts uRequestVolume) events) :
    ∃ peer, run info.pieceLength (.new N fileParts uRequestVolume) events = some peer ∧
      ∀ bComplete bActive : SRequestedBlock → Bool, ∃ peer', run info.pieceLength peer
        (((answers seed info content peer.incomingBlocks).filterMap receivedBlock).map fun block =>
          .block block (bComplete block) (bActive block)) = some peer' ∧ peer'.incomingBlocks = [] := by
  obtain ⟨peer, hrun, h⟩ := run_ok (peerOk_new hparts uRequestVolume) (hN.trans (by decide)) info.pieceLength_pos
    hpieces hlength hr hm
  refine ⟨peer, hrun, fun bComplete bActive => ?_⟩
  rw [receivedBlock_answers hN hpieces hlength hplain hcontent seed h.outstanding.fits]
  exact run_drains hN bComplete bActive h (List.Subset.refl _)

end Exchange

/-- The block of a small file. -/
theorem requests_answered_block : ∃ peer, run 16384 blockPeer [.announce 0 16384 true,
    .shedule 0 16384 false false 3, .request blockEnv] = some peer ∧
      ∀ bComplete bActive : SRequestedBlock → Bool, ∃ peer', run 16384 peer
        (((answers ⟨true, false, false, fun _ _ => none⟩ ⟨16384, false, 16384, by decide⟩ (List.replicate 16384 7)
          peer.incomingBlocks).filterMap receivedBlock).map fun block =>
            .block block (bComplete block) (bActive block)) = some peer' ∧ peer'.incomingBlocks = [] := by
  refine @requests_answered 16384 (by decide) ⟨16384, false, 16384, by decide⟩ (by decide) (by decide) rfl _
    List.length_replicate _ _ (canonical_create _ (by decide)) 4 _ ?_
      ⟨trivial, fun _ _ => ⟨trivial, fun _ _ => ⟨trivial, fun _ _ => trivial⟩⟩⟩
  simp [Event.Received, Window, TransferReservation.PlanOk, blockEnv]

end NeoLoader.BlockExchange
