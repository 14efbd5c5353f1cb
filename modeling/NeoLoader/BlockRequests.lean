import NeoLoader.BlockWrites

/-!
# The blocks a torrent peer is asked for

The client keeps a list of the blocks it waits for, and the map of the transfer
marks their bytes as requested. A block leaves the list when it comes, when the
peer refuses it, when it is cancelled, and with all others when the peer chokes
or the connection ends. The two views agree as long as a cancelled range does
not cut a block: then the bytes of the block that lie in the range are free to
be requested again, but the block is still waited for. The packets, and blocks
that come with hashes of a tree, are left out.
-/

namespace NeoLoader.BlockRequests

open Tiling RangeMap PartStates TransferReservation
open ReceivedBlocks (CPartMap had)
open SharedRanges (bit Plain bit_add)

deriving instance DecidableEq for SRequestedBlock

/-- A torrent peer with a connection, as far as its requests go. -/
structure CTorrentPeer where
  /-- The reservations of the transfer, with the map of the file. -/
  r : Reservation
  /-- `m_IncomingBlocks` of the client. -/
  incomingBlocks : List SRequestedBlock
  /-- `m_RequestVolume`. -/
  uRequestVolume : ℕ

/-- The constructor of `SRequestedBlock` takes three `uint32`. -/
def toUInt32 (block : SRequestedBlock) : SRequestedBlock :=
  ⟨block.index % 2 ^ 32, block.offset % 2 ^ 32, block.length % 2 ^ 32⟩

variable (uPieceSize : ℕ)

/-- First offset of a block in the file. -/
def blockBegin (block : SRequestedBlock) : ℕ := block.index * uPieceSize + block.offset

/-- First offset after a block in the file. -/
def blockEnd (block : SRequestedBlock) : ℕ := blockBegin uPieceSize block + block.length

/-- `CTorrentPeer::RequestBlocks`, with what the client keeps of the requests. -/
def requestBlocks (env : RequestEnv) (peer : CTorrentPeer) : Option CTorrentPeer :=
  (TransferReservation.requestBlocks { env with uPieceSize := uPieceSize }
    ⟨peer.r, peer.incomingBlocks, peer.uRequestVolume, 0⟩).map fun s =>
      ⟨s.r, s.requests.map toUInt32, s.uRequestVolume⟩

/-- `CTorrentPeer::CancelRequest`: only blocks that lie in the range are cancelled. -/
def cancelRequest (uBegin uEnd : ℕ) (peer : CTorrentPeer) : Option CTorrentPeer :=
  (TransferReservation.cancelRequest uBegin uEnd peer.r).map fun r =>
    { peer with
      r := r
      incomingBlocks := peer.incomingBlocks.filter fun block =>
        !(decide (blockBegin uPieceSize block ≥ uBegin) && decide (blockEnd uPieceSize block ≤ uEnd)) }

/-- `CP2PTransfer::RangeReceived` of the peer. Other transfers may cancel the range
too, which changes the map of the file only. -/
def rangeReceived (uBegin uEnd : ℕ) (bComplete bActive : Bool) (peer : CTorrentPeer) :
    Option CTorrentPeer :=
  if bComplete then some peer
  else
    match cacheRange uBegin uEnd peer.r.fileParts with
    | none => none
    | some fileParts =>
      match releaseRange uBegin uEnd true { peer.r with fileParts := fileParts } with
      | none => none
      | some r =>
        if (r.fileParts.getRange partMapOps uBegin uEnd EMerge.eUnion partMapOps.default).and
            Part.Requested ≠ 0 ∧ bActive then
          cancelRequest uPieceSize uBegin uEnd { peer with r := r }
        else some { peer with r := r }

/-- `CTorrentClient::ProcessBlock`, without the new requests at its end. -/
def processBlock (block : SRequestedBlock) (bComplete bActive : Bool) (peer : CTorrentPeer) :
    Option CTorrentPeer :=
  if block ∉ peer.incomingBlocks then some peer
  else rangeReceived uPieceSize (blockBegin uPieceSize block) (blockEnd uPieceSize block) bComplete
    bActive { peer with incomingBlocks := peer.incomingBlocks.filter (· ≠ block) }

/-- `CTorrentClient::ProcessRejectRequest`, without the new requests at its end. -/
def processRejectRequest (block : SRequestedBlock) (peer : CTorrentPeer) : Option CTorrentPeer :=
  if block ∉ peer.incomingBlocks then some peer
  else
    (releaseRange (blockBegin uPieceSize block) (blockEnd uPieceSize block) true peer.r).map fun r =>
      { peer with r := r, incomingBlocks := peer.incomingBlocks.filter (· ≠ block) }

/-- What happens to a peer. -/
inductive Event where
  /-- The map of the file changes: by other transfers, the writer or the inspector. -/
  | file (fileParts : CRangeMap SPartRange)
  /-- The peer announces a range, or that it does not have it. -/
  | announce (uBegin uEnd : ℕ) (bAvailable : Bool)
  /-- `SheduleRange`. -/
  | shedule (uBegin uEnd : ℕ) (bStream bResult : Bool) (endGameVolume : ℤ)
  /-- `RequestBlocks`. -/
  | request (env : RequestEnv)
  /-- A block comes. -/
  | block (block : SRequestedBlock) (bComplete bActive : Bool)
  /-- The peer refuses a block. -/
  | reject (block : SRequestedBlock)
  /-- `CancelRequest`. -/
  | cancel (uBegin uEnd : ℕ)
  /-- The peer chokes, or the connection ends. -/
  | choke
  | resetSchedule

/-- The next state of a peer. -/
def step (peer : CTorrentPeer) : Event → Option CTorrentPeer
  | Event.file fileParts => some { peer with r := { peer.r with fileParts := fileParts } }
  | Event.announce uBegin uEnd bAvailable => some { peer with
      r := { peer.r with
        parts := peer.r.parts.setRange shareMapOps uBegin uEnd (BitVec.ofNat 16 (Part.Available ||| Part.Verified))
          (if bAvailable then ESet.eAdd else ESet.eClr) } }
  | Event.shedule uBegin uEnd bStream bResult endGameVolume =>
    (sheduleRange uBegin uEnd bStream bResult endGameVolume peer.r).map fun result =>
      { peer with r := result.1 }
  | Event.request env => requestBlocks uPieceSize env peer
  | Event.block block bComplete bActive => processBlock uPieceSize block bComplete bActive peer
  | Event.reject block => processRejectRequest uPieceSize block peer
  | Event.cancel uBegin uEnd => cancelRequest uPieceSize uBegin uEnd peer
  | Event.choke => (releaseRange 0 minusOne true peer.r).map fun r =>
      { peer with r := r, incomingBlocks := [] }
  | Event.resetSchedule => (releaseRange 0 minusOne false peer.r).map fun r => { peer with r := r }

/-- A run of events. -/
def run (peer : CTorrentPeer) : List Event → Option CTorrentPeer
  | [] => some peer
  | event :: events => (step uPieceSize peer event).bind fun peer => run peer events

/-- A peer of a file of some size that has announced nothing yet. -/
def CTorrentPeer.new (uFileSize : ℕ) (fileParts : CRangeMap SPartRange) (uRequestVolume : ℕ) :
    CTorrentPeer :=
  ⟨⟨CRangeMap.create shareMapOps uFileSize, 0, false, fileParts⟩, [], uRequestVolume⟩

section Blocks

/-- The bytes of a block. -/
def Covers (block : SRequestedBlock) (x : ℕ) : Prop :=
  blockBegin uPieceSize block ≤ x ∧ x < blockEnd uPieceSize block

/-- Two blocks have no byte in common. -/
def Apart (block block' : SRequestedBlock) : Prop :=
  ∀ x, Covers uPieceSize block x → ¬Covers uPieceSize block' x

/-- A block of a size that peers accept, inside one piece and inside the file. -/
structure Fits (N : ℕ) (block : SRequestedBlock) : Prop where
  /-- The block is not empty. -/
  pos : 0 < block.length
  /-- It is not too long. -/
  le_block : block.length ≤ 16 * 1024
  /-- It ends in its piece. -/
  in_piece : block.offset + block.length ≤ uPieceSize
  /-- It ends in the file. -/
  in_file : blockEnd uPieceSize block ≤ N

variable {uPieceSize} {N : ℕ}

/-- The numbers of a block of a file that has not too many and not too long pieces
have 32 bits. -/
theorem Fits.toUInt32 {block : SRequestedBlock} (h : Fits uPieceSize N block)
    (hpieces : N ≤ 2 ^ 32 * uPieceSize) (hlength : min uPieceSize N ≤ 2 ^ 32) : toUInt32 block = block := by
  obtain ⟨hpos, hle, hpiece, hfile⟩ := h
  unfold blockEnd blockBegin at hfile
  have hindex : block.index < 2 ^ 32 := by
    refine lt_of_mul_lt_mul_right (a := uPieceSize) ?_ (Nat.zero_le _)
    omega
  unfold BlockRequests.toUInt32
  rw [Nat.mod_eq_of_lt hindex, Nat.mod_eq_of_lt (show block.offset < 2 ^ 32 by omega),
    Nat.mod_eq_of_lt (show block.length < 2 ^ 32 by omega)]

/-- The block asked for at an offset starts there and fits. -/
theorem fits_blockSizeAt {env : RequestEnv} (hpiece : 0 < env.uPieceSize) {uBegin uEnd : ℕ}
    (hlt : uBegin < uEnd) (hend : uEnd ≤ N) :
    blockBegin env.uPieceSize ⟨uBegin / env.uPieceSize, uBegin % env.uPieceSize, blockSizeAt env uBegin uEnd⟩ = uBegin ∧
      uBegin + blockSizeAt env uBegin uEnd ≤ uEnd ∧
      Fits env.uPieceSize N ⟨uBegin / env.uPieceSize, uBegin % env.uPieceSize, blockSizeAt env uBegin uEnd⟩ := by
  have hmod := Nat.mod_lt uBegin hpiece
  have hpos := blockSizeAt_pos env hpiece hlt
  have hbegin : blockBegin env.uPieceSize ⟨uBegin / env.uPieceSize, uBegin % env.uPieceSize,
      blockSizeAt env uBegin uEnd⟩ = uBegin := Nat.div_add_mod' uBegin env.uPieceSize
  have hsize : blockSizeAt env uBegin uEnd ≤ uEnd - uBegin ∧ blockSizeAt env uBegin uEnd ≤ 16 * 1024 ∧
      uBegin % env.uPieceSize + blockSizeAt env uBegin uEnd ≤ env.uPieceSize := by
    unfold blockSizeAt
    dsimp only
    split_ifs <;> omega
  refine ⟨hbegin, by omega, hpos, hsize.2.1, hsize.2.2, ?_⟩
  unfold blockEnd
  rw [hbegin]
  dsimp only
  omega

end Blocks

section Passive

variable {N : ℕ} {r r' : Reservation}

/-- Whether a byte of the file is available or cached. -/
def hadAt (r : Reservation) (x : ℕ) : Bool := had (CPartMap.single r.fileParts) x

/-- Requested bytes stay requested, and nothing changes in what is had. -/
structure Passive (N : ℕ) (r r' : Reservation) : Prop where
  /-- The requested bytes. -/
  requested : ∀ x, hasFlag (r.own x) Part.Requested = true → hasFlag (r'.own x) Part.Requested = true
  /-- The bytes that are had. -/
  had : ∀ x < N, hadAt r' x = hadAt r x

theorem passive_refl (r : Reservation) : Passive N r r := ⟨fun _ h => h, fun _ _ => rfl⟩

theorem Passive.trans {r'' : Reservation} (h : Passive N r r') (h' : Passive N r' r'') : Passive N r r'' :=
  ⟨fun x hx => h'.requested x (h.requested x hx), fun x hx => (h'.had x hx).trans (h.had x hx)⟩

theorem hadAt_eq (r : Reservation) (x : ℕ) : hadAt r x = (bit (r.file x) 0 || bit (r.file x) 3) :=
  rfl

theorem hadAt_eq_false {x : ℕ} (h : ¬(r.file x).and (Part.Available ||| Part.Cached) ≠ 0) : hadAt r x = false := by
  rw [hadAt_eq, ← Bool.not_eq_true, ← ReceivedBlocks.and_uHad]
  exact h

section

variable (h : OwnOk N r) (hN : N < 2 ^ 64) {uBegin uEnd : ℕ} (hlt : uBegin < uEnd)

include h hN hlt

/-- Setting flags of a range in both maps, none of which says that it is had. -/
theorem passive_add (hend : uEnd ≤ N) (u : BitVec 16) {w : BitVec 32} (hw : ∀ k, k = 0 ∨ k = 3 → w.getLsbD k = false)
    (hparts : r'.parts = r.parts.setRange shareMapOps uBegin uEnd u ESet.eAdd)
    (hfile : r'.fileParts = r.fileParts.setRange partMapOps uBegin uEnd (SPartRange.ofStates w)
      ESet.eAdd) : Passive N r r' := by
  have hbit : ∀ x k, k = 0 ∨ k = 3 → bit (r'.file x) k = bit (r.file x) k := by
    intro x k hk
    have hplain : Plain k := by rcases hk with rfl | rfl <;> exact ⟨by omega, by omega, by omega⟩
    unfold Reservation.file
    rw [hfile, stateAt_setRange h.fileParts hN hlt hend]
    split_ifs
    · refine (bit_add _ w hplain).trans ?_
      rw [hw k hk, Bool.or_false]
    · rfl
  refine ⟨fun x hx => ?_, fun x _ => ?_⟩
  · rw [hasFlag_requested] at hx ⊢
    unfold Reservation.own at hx ⊢
    rw [hparts, stateAt_setRange h.parts hN hlt hend]
    split_ifs
    · refine BitVec.getLsbD_or.trans ?_
      rw [hx, Bool.true_or]
    · exact hx
  · rw [hadAt_eq, hadAt_eq, hbit x 0 (Or.inl rfl), hbit x 3 (Or.inr rfl)]

theorem passive_reserve (hend : uEnd ≤ N) :
    Passive N r (reserveRange uBegin uEnd (BitVec.ofNat 32 Part.Scheduled) r) := by
  refine passive_add h hN hlt hend _ (fun k hk => ?_) rfl rfl
  rcases hk with rfl | rfl <;> decide

theorem passive_release (hto : uEnd < 2 ^ 64) {bAll : Bool} (hrun : releaseRange uBegin uEnd bAll r = some r')
    (hfree : ∀ x, uBegin ≤ x → x < uEnd → hasFlag (r.own x) Part.Requested = false) : Passive N r r' := by
  obtain ⟨r₁, cur, hrun₁, hw⟩ := releaseRange_walked h hN hlt hto bAll
  obtain ⟨r₂, hrun₂, -, hrel⟩ := BlockWrites.releaseRange_released hN hlt hto ⟨h.parts, h.fileParts⟩ bAll
  obtain rfl : r₁ = r' := Option.some.inj (hrun₁.symm.trans hrun)
  obtain rfl : r₂ = r₁ := Option.some.inj (hrun₂.symm.trans hrun)
  have hle := hw.le
  refine ⟨fun x hx => ?_, fun x hx => ?_⟩
  · have hout : x < uBegin ∨ uEnd ≤ x := by
      by_contra hin
      rw [hfree x (by omega) (by omega)] at hx
      cases hx
    rw [hw.ahead x (by omega)]
    exact hx
  · obtain ⟨havailable, hcached⟩ := hrel.flags x hx
    unfold hadAt ReceivedBlocks.had
    rw [havailable, hcached]

end

/-- A window that is walked, or has nothing of the file. -/
def Window (N uBegin uEnd : ℕ) : Prop :=
  uBegin < uEnd ∧ uEnd < 2 ^ 64 ∨ N ≤ uBegin ∧ uBegin + 1 < 2 ^ 64

/-- The inner loop of `SheduleRange` only reserves. -/
theorem sheduleFile_passive {s : Reservation × ℕ} (h : OwnOk N s.1) (hN : N < 2 ^ 64)
    {uBegin uEnd : ℕ} (hlt : uBegin < uEnd) (hto : uEnd < 2 ^ 64)
    (hfree : ∀ x, uBegin ≤ x → x < uEnd → hasFlag (s.1.own x) Part.Scheduled = false)
    (endGameVolume : ℤ) (bStream : Bool) :
    ∃ s', forRanges partMapOps (fun s : Reservation × ℕ => s.1.fileParts) partMapOps.default
        (fun _ => true) (sheduleFileBody endGameVolume bStream) uBegin uEnd s = some s' ∧
      Passive N s.1 s'.1 := by
  have hbody := (sheduleFileBody_walked hN hfree endGameVolume bStream).and
    (fun _ s' => Passive N s.1 s'.1) fun s' it s'' it' hw hp hat hrun => by
      unfold sheduleFileBody at hrun
      split_ifs at hrun
      · cases hrun
        exact hp
      · cases hrun
        exact hp
      · cases hrun
        exact hp.trans (passive_reserve hw.kept.ok hN hat.lt hat.uEnd_le)
  obtain ⟨s', cur, hrun, hinv, -⟩ := forRanges_spec hN hlt hto
    (fun _ _ hinv => hinv.1.kept.ok.fileParts) hbody ⟨walked_refl h hlt.le, passive_refl s.1⟩
  exact ⟨s', hrun, hinv.2⟩

/-- `SheduleRange` only reserves. -/
theorem sheduleRange_passive (h : OwnOk N r) (hN : N < 2 ^ 64) {uBegin uEnd : ℕ}
    (hwindow : Window N uBegin uEnd) (bStream bResult : Bool) (endGameVolume : ℤ) :
    ∃ result, sheduleRange uBegin uEnd bStream bResult endGameVolume r = some result ∧
      OwnOk N result.1 ∧ Passive N r result.1 := by
  unfold sheduleRange
  split_ifs
  · exact ⟨_, rfl, h, passive_refl r⟩
  · exact ⟨_, rfl, h, passive_refl r⟩
  · rcases hwindow with ⟨hlt, hto⟩ | ⟨hpast, hfrom⟩
    · have hbody := (sheduleBody_walked (r := r) hN uBegin uEnd endGameVolume bStream).and (fun _ s => Passive N r s.1)
        fun s it s' it' hw hp hat hrun => by
          have hend := hat.uEnd_le
          unfold sheduleBody at hrun
          split_ifs at hrun with hmissing hreserved
          · cases hrun
            exact hp
          · cases hrun
            exact hp
          · obtain ⟨s₁, hloop, hp'⟩ := sheduleFile_passive hw.kept.ok hN hat.lt (by omega) (fun x h1 h2 => by
                rw [AtRange.own hat h1 h2]
                exact eq_false_of_ne_true hreserved) endGameVolume bStream
            rw [hloop, Option.map_some] at hrun
            cases hrun
            exact hp.trans hp'
      obtain ⟨s', cur, hrun, hinv, -⟩ := forRanges_spec hN hlt hto
        (fun _ _ hinv => hinv.1.kept.ok.parts) hbody (s := (r, 0))
        ⟨walked_refl h hlt.le, passive_refl r⟩
      rw [hrun, Option.map_some]
      exact ⟨_, rfl, hinv.1.kept.ok, hinv.2⟩
    · have hnone : forRanges shareMapOps (fun s : Reservation × ℕ => s.1.parts) 0 (fun _ => true)
          (sheduleBody endGameVolume bStream) uBegin uEnd (r, 0) = some (r, 0) :=
        forRanges_past hN hpast hfrom h.parts
      rw [hnone, Option.map_some]
      exact ⟨_, rfl, h, passive_refl r⟩

/-- `SheduleDownload` only reserves. -/
theorem sheduleDownload_passive (env : RequestEnv) (h : OwnOk N r) (hN : N < 2 ^ 64)
    {plan : List SPart} (hplan : PlanOk plan) : ∃ result, sheduleDownload env plan r = some result ∧ OwnOk N result.1 ∧
      Passive N r result.1 := by
  induction plan generalizing r with
  | nil => exact ⟨_, rfl, h, passive_refl r⟩
  | cons range plan ih =>
    obtain ⟨⟨r', bDone⟩, hrun, hok, hp⟩ := sheduleRange_passive h hN
      (Or.inl (hplan range List.mem_cons_self)) range.bStream range.bResult env.endGameVolume
    rw [sheduleDownload, hrun]
    cases bDone with
    | true => exact ⟨_, rfl, hok, hp⟩
    | false =>
      obtain ⟨result, hrest, hok', hp'⟩ := ih hok fun other hm =>
        hplan other (List.mem_cons_of_mem _ hm)
      exact ⟨result, hrest, hok', hp.trans hp'⟩

end Passive

section Asks

variable {uPieceSize} {N : ℕ}

/-- The blocks a peer is waited for fit, are marked in the transfer's map, and have no
byte in common. -/
structure Outstanding (uPieceSize N : ℕ) (r : Reservation) (blocks : List SRequestedBlock) :
    Prop where
  /-- Every block fits. -/
  fits : ∀ block ∈ blocks, Fits uPieceSize N block
  /-- Its bytes are requested. -/
  requested : ∀ block ∈ blocks, ∀ x, Covers uPieceSize block x → hasFlag (r.own x) Part.Requested = true
  /-- No byte is in two blocks. -/
  apart : blocks.Pairwise (Apart uPieceSize)

theorem Outstanding.sublist {r r' : Reservation} {blocks blocks' : List SRequestedBlock}
    (h : Outstanding uPieceSize N r blocks) (hsub : blocks'.Sublist blocks)
    (hkept : ∀ block ∈ blocks', ∀ x, Covers uPieceSize block x →
      hasFlag (r.own x) Part.Requested = true → hasFlag (r'.own x) Part.Requested = true) :
    Outstanding uPieceSize N r' blocks' where
  fits := fun block hm => h.fits block (hsub.subset hm)
  requested := fun block hm x hx => hkept block hm x hx (h.requested block (hsub.subset hm) x hx)
  apart := h.apart.sublist hsub

section

variable {r r' : Reservation} {blocks : List SRequestedBlock} (h : Outstanding uPieceSize N r blocks)
  (hp : Passive N r r')

include h hp

theorem Outstanding.passive : Outstanding uPieceSize N r' blocks :=
  h.sublist (List.Sublist.refl _) fun _ _ x _ hx => hp.requested x hx

/-- One more block, of bytes that were not requested. -/
theorem Outstanding.append {block : SRequestedBlock} (hfits : Fits uPieceSize N block)
    (hfree : ∀ x, Covers uPieceSize block x → hasFlag (r.own x) Part.Requested = false)
    (hnow : ∀ x, Covers uPieceSize block x → hasFlag (r'.own x) Part.Requested = true) :
    Outstanding uPieceSize N r' (blocks ++ [block]) := by
  have hp' := h.passive hp
  refine ⟨fun other hm => ?_, fun other hm x hx => ?_, List.pairwise_append.mpr ⟨hp'.apart,
    List.pairwise_singleton _ _, fun other hm last hlast x hx hx' => ?_⟩⟩
  · rcases List.mem_append.mp hm with hm | hm
    · exact h.fits other hm
    · rw [List.mem_singleton.mp hm]
      exact hfits
  · rcases List.mem_append.mp hm with hm | hm
    · exact hp'.requested other hm x hx
    · rw [List.mem_singleton.mp hm] at hx
      exact hnow x hx
  · rw [List.mem_singleton.mp hlast] at hx'
    have hset := h.requested other hm x hx
    rw [hfree x hx'] at hset
    cases hset

end

/-- What the loops of `RequestBlocks` have done since they began. -/
structure Asks (uPieceSize N : ℕ) (s₀ s : RequestState) : Prop where
  /-- The blocks are in order. -/
  outstanding : Outstanding uPieceSize N s.r s.requests
  /-- Nothing has changed in what is had. -/
  had : ∀ x < N, hadAt s.r x = hadAt s₀.r x
  /-- Only bytes that are not had were asked for. -/
  asked : ∃ blocks, s.requests = s₀.requests ++ blocks ∧
    ∀ block ∈ blocks, ∀ x, Covers uPieceSize block x → hadAt s₀.r x = false

theorem asks_refl {s : RequestState} (h : Outstanding uPieceSize N s.r s.requests) : Asks uPieceSize N s s :=
  ⟨h, fun _ _ => rfl, [], (List.append_nil _).symm, fun _ hm => by cases hm⟩

variable {s₀ s s' : RequestState}

theorem Asks.passive (h : Asks uPieceSize N s₀ s) (hp : Passive N s.r s'.r) (hrequests : s'.requests = s.requests) :
    Asks uPieceSize N s₀ s' := by
  refine ⟨?_, fun x hx => (hp.had x hx).trans (h.had x hx), ?_⟩
  · rw [hrequests]
    exact h.outstanding.passive hp
  · rw [hrequests]
    exact h.asked

theorem Asks.append (h : Asks uPieceSize N s₀ s) (hp : Passive N s.r s'.r) {block : SRequestedBlock}
    (hrequests : s'.requests = s.requests ++ [block]) (hfits : Fits uPieceSize N block)
    (hfree : ∀ x, Covers uPieceSize block x → hasFlag (s.r.own x) Part.Requested = false)
    (hnow : ∀ x, Covers uPieceSize block x → hasFlag (s'.r.own x) Part.Requested = true)
    (hmissing : ∀ x, Covers uPieceSize block x → hadAt s.r x = false) : Asks uPieceSize N s₀ s' := by
  obtain ⟨blocks, hblocks, hbytes⟩ := h.asked
  refine ⟨?_, fun x hx => (hp.had x hx).trans (h.had x hx), blocks ++ [block], ?_, fun other hm x hx => ?_⟩
  · rw [hrequests]
    exact h.outstanding.append hp hfits hfree hnow
  · rw [hrequests, hblocks, List.append_assoc]
  · rcases List.mem_append.mp hm with hm | hm
    · exact hbytes other hm x hx
    · rw [List.mem_singleton.mp hm] at hx
      have hin : x < N := lt_of_lt_of_le hx.2 hfits.in_file
      rw [← h.had x hin]
      exact hmissing x hx

variable (env : RequestEnv)

/-- The body of the inner loop of `RequestBlocks` asks for blocks that are in order. -/
theorem requestFileBody_asks {r : Reservation} (hN : N < 2 ^ 64) (hpiece : 0 < env.uPieceSize) {uBegin uEnd : ℕ}
    (hfree : ∀ x, uBegin ≤ x → x < uEnd → hasFlag (r.own x) Part.Requested = false)
    {it it' : SIterator SPartRange} (hw : Walked N r uBegin uEnd it.uBegin s.r) (ha : Asks env.uPieceSize N s₀ s)
    (hat : AtRange partMapOps N s.r.fileParts partMapOps.default uBegin uEnd it)
    (hrun : requestFileBody env s it = some (s', it')) : Asks env.uPieceSize N s₀ s' := by
  have hok := hw.kept.ok
  have hlt := hat.lt
  have hend := hat.uEnd_le
  have hfrom := hat.uFrom_le
  have hto := hat.le_uTo
  have hopen : ∀ x, it.uBegin ≤ x → x < it.uEnd → hasFlag (s.r.own x) Part.Requested = false := by
    intro x h1 h2
    rw [hw.ahead x (Or.inr h1)]
    exact hfree x (by omega) (by omega)
  unfold requestFileBody at hrun
  split_ifs at hrun with hdone hbusy
  · obtain ⟨r', hrelease, he⟩ := Option.map_eq_some_iff.mp hrun
    cases he
    exact ha.passive (passive_release hok hN hlt (by omega) hrelease hopen) rfl
  · cases hrun
    exact ha.passive (passive_refl _) rfl
  · obtain ⟨hbegin, hsize, hfits⟩ := fits_blockSizeAt hpiece hlt hend
    have hpos := hfits.pos
    have hcut : (if it.uEnd - it.uBegin > blockSizeAt env it.uBegin it.uEnd then
        it.uBegin + blockSizeAt env it.uBegin it.uEnd else it.uEnd) =
          it.uBegin + blockSizeAt env it.uBegin it.uEnd := by
      split_ifs <;> omega
    dsimp only at hrun hpos
    rw [hcut] at hrun
    have hblock : ∀ x, Covers env.uPieceSize ⟨it.uBegin / env.uPieceSize,
        it.uBegin % env.uPieceSize, blockSizeAt env it.uBegin it.uEnd⟩ x →
          it.uBegin ≤ x ∧ x < it.uBegin + blockSizeAt env it.uBegin it.uEnd := by
      intro x hx
      unfold Covers blockEnd at hx
      rwa [hbegin] at hx
    cases hrun
    refine ha.append (passive_add hok hN (by omega) (by omega) _ (fun k hk => ?_) rfl rfl) rfl hfits
      (fun x hx => ?_) (fun x hx => ?_) fun x hx => ?_
    · rcases hk with rfl | rfl <;> decide
    · obtain ⟨h1, h2⟩ := hblock x hx
      exact hopen x h1 (by omega)
    · unfold Reservation.own
      dsimp only
      rw [stateAt_setRange hok.parts hN (by omega) (by omega), if_pos (hblock x hx), hasFlag_requested]
      refine BitVec.getLsbD_or.trans ?_
      rw [show (BitVec.ofNat 16 Part.Requested).getLsbD 5 = true by decide, Bool.or_true]
    · obtain ⟨h1, h2⟩ := hblock x hx
      have hstate := hat.same x h1 (by omega)
      rw [CRangeMap.masked, if_neg (show ¬partMapOps.stateSet partMapOps.default = true by decide)] at hstate
      refine hadAt_eq_false ?_
      unfold Reservation.file
      rw [hstate]
      exact hdone

section

variable {s₀ s : RequestState} (h : OwnOk N s.r) (hN : N < 2 ^ 64) (hpiece : 0 < env.uPieceSize)

include h hN hpiece

/-- The inner loop of `RequestBlocks` asks for blocks that are in order. -/
theorem requestFile_asks {uBegin uEnd : ℕ} (hlt : uBegin < uEnd) (hto : uEnd < 2 ^ 64)
    (hset : ∀ x, uBegin ≤ x → x < uEnd → hasFlag (s.r.own x) Part.Scheduled = true)
    (hfree : ∀ x, uBegin ≤ x → x < uEnd → hasFlag (s.r.own x) Part.Requested = false)
    (uRequestVolume : ℕ) (ha : Asks env.uPieceSize N s₀ s) :
    ∃ s', forRanges partMapOps (fun s : RequestState => s.r.fileParts) partMapOps.default
        (requestMore uRequestVolume) (requestFileBody env) uBegin uEnd s = some s' ∧
      Asks env.uPieceSize N s₀ s' := by
  have hbody := (requestFileBody_walked env hN hpiece hset hfree uRequestVolume).and
    (fun _ s' => Asks env.uPieceSize N s₀ s') fun s' it s'' it' hw hask hat hrun =>
      requestFileBody_asks env hN hpiece hfree hw hask hat hrun
  obtain ⟨s', cur, hrun, hinv, -⟩ := forRanges_spec hN hlt hto
    (fun _ _ hinv => hinv.1.kept.ok.fileParts) hbody ⟨walked_refl h hlt.le, ha⟩
  exact ⟨s', hrun, hinv.2⟩

/-- A round of `RequestBlocks` asks for blocks that are in order. -/
theorem requestRound_asks (ha : Asks env.uPieceSize N s₀ s) :
    ∃ s', requestRound env s = some s' ∧ OwnOk N s'.r ∧ Asks env.uPieceSize N s₀ s' := by
  have hbody := (requestBody_walked (r := s.r) env hN hpiece
    (min env.uRequestLimit s.uRequestVolume)).and (fun _ s' => Asks env.uPieceSize N s₀ s')
    fun s' it s'' it' hw hask hat hrun => by
      have hend := hat.uEnd_le
      unfold requestBody at hrun
      split_ifs at hrun with hskip
      · cases hrun
        exact hask
      · rw [not_or, Bool.not_eq_false, Bool.not_eq_true] at hskip
        obtain ⟨s₁, hloop, hask'⟩ := requestFile_asks env hw.kept.ok hN hpiece hat.lt (by omega)
          (fun x h1 h2 => by rw [AtRange.own hat h1 h2]; exact hskip.1)
          (fun x h1 h2 => by rw [AtRange.own hat h1 h2]; exact hskip.2)
          (min env.uRequestLimit s.uRequestVolume) hask
        rw [hloop, Option.map_some] at hrun
        cases hrun
        exact hask'
  obtain ⟨s', cur, hrun, hinv, -⟩ := forRanges_spec hN (show 0 < minusOne by decide)
    (show minusOne < 2 ^ 64 by decide) (fun _ _ hinv => hinv.1.kept.ok.parts) hbody
    (s := { s with uReservedCount := 0 })
    ⟨walked_refl h (Nat.zero_le _), ha.passive (passive_refl _) rfl⟩
  unfold requestRound
  dsimp only
  rw [hrun, Option.map_some]
  exact ⟨_, rfl, hinv.1.kept.ok, hinv.2.passive (passive_refl _) rfl⟩

end

/-- `RequestBlocks` asks for blocks that are in order. -/
theorem requestBlocks_asks {s : RequestState} (h : OwnOk N s.r) (hN : N < 2 ^ 64)
    (hpiece : 0 < env.uPieceSize) (hplan : PlanOk env.plan) (hs : Outstanding env.uPieceSize N s.r s.requests) :
    ∃ s', TransferReservation.requestBlocks env s = some s' ∧ OwnOk N s'.r ∧
      Asks env.uPieceSize N s s' := by
  unfold TransferReservation.requestBlocks
  by_cases hbusy : env.bBusy = true
  · rw [if_pos hbusy]
    exact ⟨s, rfl, h, asks_refl hs⟩
  · rw [if_neg hbusy]
    obtain ⟨s₁, hround, hok, ha⟩ := requestRound_asks env h hN hpiece (asks_refl hs)
    rw [hround]
    dsimp only
    by_cases hnone : s₁.requests.length = 0
    · obtain ⟨⟨r', bDone⟩, hdownload, hok', hp⟩ := sheduleDownload_passive env hok hN hplan
      have ha' : Asks env.uPieceSize N s { s₁ with r := r' } := ha.passive hp rfl
      rw [if_pos hnone, hdownload]
      cases bDone with
      | true => exact requestRound_asks env hok' hN hpiece ha'
      | false => exact ⟨_, rfl, hok', ha'⟩
    · rw [if_neg hnone]
      exact ⟨s₁, rfl, hok, ha⟩

end Asks

section Runs

variable {uPieceSize} {N : ℕ}

/-- The invariant of a peer: its reservations are in order, and so are its blocks. -/
structure PeerOk (uPieceSize N : ℕ) (peer : CTorrentPeer) : Prop where
  /-- The reservations. -/
  ok : OwnOk N peer.r
  /-- The blocks. -/
  outstanding : Outstanding uPieceSize N peer.r peer.incomingBlocks

/-- What is apart is so both ways. -/
instance : Std.Symm (Apart uPieceSize) := ⟨fun _ _ h x hx hx' => h x hx' hx⟩

/-- Of two blocks that are apart one ends before the other. -/
theorem Apart.before {block block' : SRequestedBlock} (h : Apart uPieceSize block block')
    (hfits : Fits uPieceSize N block) (hfits' : Fits uPieceSize N block') :
    blockEnd uPieceSize block ≤ blockBegin uPieceSize block' ∨
      blockEnd uPieceSize block' ≤ blockBegin uPieceSize block := by
  have hpos := hfits.pos
  have hpos' := hfits'.pos
  by_contra hboth
  rw [not_or, not_le, not_le] at hboth
  refine h (max (blockBegin uPieceSize block) (blockBegin uPieceSize block')) ⟨?_, ?_⟩ ⟨?_, ?_⟩
  · exact le_max_left _ _
  · refine max_lt ?_ hboth.1
    unfold blockEnd
    omega
  · exact le_max_right _ _
  · refine max_lt hboth.2 ?_
    unfold blockEnd
    omega

variable {blocks : List SRequestedBlock}

theorem Outstanding.others {r : Reservation}
    (h : Outstanding uPieceSize N r blocks) {block other : SRequestedBlock} (hm : block ∈ blocks)
    (ho : other ∈ blocks.filter (· ≠ block)) : blockEnd uPieceSize other ≤ blockBegin uPieceSize block ∨
      blockEnd uPieceSize block ≤ blockBegin uPieceSize other := by
  have hother := List.mem_of_mem_filter ho
  have hne : other ≠ block := by simpa using (List.mem_filter.mp ho).2
  have hapart := h.apart.forall hother hm hne
  exact hapart.before (h.fits other hother) (h.fits block hm)

section

variable {r : Reservation} (h : OwnOk N r)

include h

/-- A window is released, and the blocks that stay lie outside of it. -/
theorem releaseRange_outstanding (hs : Outstanding uPieceSize N r blocks) (hN : N < 2 ^ 64) {uBegin uEnd : ℕ}
    (hlt : uBegin < uEnd) (hto : uEnd < 2 ^ 64) (blocks' : List SRequestedBlock) (hsub : blocks'.Sublist blocks)
    (hout : ∀ block ∈ blocks', blockEnd uPieceSize block ≤ uBegin ∨ uEnd ≤ blockBegin uPieceSize block) :
    ∃ r', releaseRange uBegin uEnd true r = some r' ∧ OwnOk N r' ∧
      Outstanding uPieceSize N r' blocks' := by
  obtain ⟨r', cur, hrun, hw⟩ := releaseRange_walked h hN hlt hto true
  have hle := hw.le
  refine ⟨r', hrun, hw.kept.ok, hs.sublist hsub fun block hm x hx hreq => ?_⟩
  have hblock := hout block hm
  obtain ⟨h1, h2⟩ := hx
  rw [hw.ahead x (by omega)]
  exact hreq

/-- Without the requested ranges, releasing keeps what is requested. -/
theorem releaseRange_unrequested (hN : N < 2 ^ 64) {uBegin uEnd : ℕ} (hlt : uBegin < uEnd) (hto : uEnd < 2 ^ 64) :
    ∃ r', releaseRange uBegin uEnd false r = some r' ∧ OwnOk N r' ∧
      ∀ x, hasFlag (r.own x) Part.Requested = true → hasFlag (r'.own x) Part.Requested = true := by
  have hbody := (releaseBody_walked (r := r) hN uBegin uEnd false).and
    (fun _ r' => ∀ x, hasFlag (r.own x) Part.Requested = true →
      hasFlag (r'.own x) Part.Requested = true) fun r₁ it r₂ it' hw hkept hat hrun => by
      unfold releaseBody at hrun
      by_cases hheld : hasFlag it.uState (Part.Scheduled ||| Part.Marked) = true ∧
          (false = true ∨ hasFlag it.uState Part.Requested = false)
      · rw [if_pos hheld] at hrun
        cases hrun
        have hopen : hasFlag it.uState Part.Requested = false := by simpa using hheld.2
        obtain ⟨-, hout⟩ := own_setRange hw.kept.ok hN hat.lt hat.uEnd_le _ ESet.eClr
          (unReserveRange it.uBegin it.uEnd ((heldFlags it.uState).setWidth 32) r₁) rfl
        intro x hx
        have hset := hkept x hx
        have hoff : x < it.uBegin ∨ it.uEnd ≤ x := by
          by_contra hin
          rw [AtRange.own hat (by omega) (by omega), hopen] at hset
          cases hset
        exact (congrArg (hasFlag · Part.Requested) (hout x hoff)).trans hset
      · rw [if_neg hheld] at hrun
        cases hrun
        exact hkept
  obtain ⟨r', cur, hrun, hinv, -⟩ := forRanges_spec hN hlt hto
    (fun _ _ hinv => hinv.1.kept.ok.parts) hbody ⟨walked_refl h hlt.le, fun _ hx => hx⟩
  exact ⟨r', hrun, hinv.1.kept.ok, hinv.2⟩

/-- An announcement leaves the reservations alone. -/
theorem announce_ok (hN : N < 2 ^ 64) {uBegin uEnd : ℕ}
    (hlt : uBegin < uEnd) (hend : uEnd ≤ N) (bAvailable : Bool) {r' : Reservation}
    (hr : r' = { r with
      parts := r.parts.setRange shareMapOps uBegin uEnd (BitVec.ofNat 16 (Part.Available ||| Part.Verified))
        (if bAvailable then ESet.eAdd else ESet.eClr) }) :
    OwnOk N r' ∧ ∀ x, hasFlag (r'.own x) Part.Requested = hasFlag (r.own x) Part.Requested := by
  have hbit : ∀ x k, k = 4 ∨ k = 5 ∨ k = 10 → (r'.own x).getLsbD k = (r.own x).getLsbD k := by
    intro x k hk
    have hoff : (BitVec.ofNat 16 (Part.Available ||| Part.Verified)).getLsbD k = false ∧ k < 16 := by
      rcases hk with rfl | rfl | rfl <;> decide
    unfold Reservation.own
    rw [hr]
    dsimp only
    rw [stateAt_setRange h.parts hN hlt hend]
    split_ifs
    · refine BitVec.getLsbD_or.trans ?_
      rw [hoff.1, Bool.or_false]
    · refine BitVec.getLsbD_and.trans ?_
      rw [BitVec.getLsbD_not, hoff.1, decide_eq_true hoff.2, Bool.not_false, Bool.and_self, Bool.and_true]
    · rfl
  have hscheduled : ∀ x, hasFlag (r'.own x) Part.Scheduled = hasFlag (r.own x) Part.Scheduled :=
    fun x => by rw [hasFlag_scheduled, hasFlag_scheduled, hbit x 4 (by simp)]
  have hrequested : ∀ x, hasFlag (r'.own x) Part.Requested = hasFlag (r.own x) Part.Requested :=
    fun x => by rw [hasFlag_requested, hasFlag_requested, hbit x 5 (by simp)]
  have hmarked : ∀ x, hasFlag (r'.own x) Part.Marked = hasFlag (r.own x) Part.Marked :=
    fun x => by rw [hasFlag_marked, hasFlag_marked, hbit x 10 (by simp)]
  refine ⟨⟨?_, ?_, fun x => ?_, ?_, ?_⟩, hrequested⟩
  · rw [hr]
    exact setRange_canonical h.parts hN hlt hend _ _
  · rw [hr]
    exact h.fileParts
  · unfold FlagsOk
    rw [hscheduled, hrequested, hmarked]
    exact h.flags x
  · have hsum : scheduledBytes N r'.parts = scheduledBytes N r.parts :=
      Finset.sum_congr rfl fun x _ => congrArg Bool.toNat (hscheduled x)
    rw [hsum, hr]
    exact h.reserved
  · rw [hr]
    exact h.underflow

end

/-- A range does not cut a block: it contains it, or they are apart. -/
def NotCut (uPieceSize uBegin uEnd : ℕ) (block : SRequestedBlock) : Prop :=
  uBegin ≤ blockBegin uPieceSize block ∧ blockEnd uPieceSize block ≤ uEnd ∨
    blockEnd uPieceSize block ≤ uBegin ∨ uEnd ≤ blockBegin uPieceSize block

/-- Cancelling a range that cuts no block. -/
theorem cancelRequest_ok (peer : CTorrentPeer) (h : PeerOk uPieceSize N peer) (hN : N < 2 ^ 64)
    {uBegin uEnd : ℕ} (hlt : uBegin < uEnd) (hto : uEnd < 2 ^ 64)
    (hcut : ∀ block ∈ peer.incomingBlocks, NotCut uPieceSize uBegin uEnd block) :
    ∃ peer', cancelRequest uPieceSize uBegin uEnd peer = some peer' ∧
      PeerOk uPieceSize N peer' := by
  unfold cancelRequest TransferReservation.cancelRequest
  split_ifs
  · exact ⟨_, rfl, h.ok, h.outstanding.sublist List.filter_sublist fun _ _ _ _ hx => hx⟩
  · obtain ⟨r', hrun, hok, hs⟩ := releaseRange_outstanding h.ok h.outstanding hN hlt hto
      (peer.incomingBlocks.filter fun block =>
        !(decide (blockBegin uPieceSize block ≥ uBegin) &&
          decide (blockEnd uPieceSize block ≤ uEnd))) List.filter_sublist fun block hm => by
        obtain ⟨hblock, hstays⟩ := List.mem_filter.mp hm
        rcases hcut block hblock with ⟨h1, h2⟩ | hout
        · simp [h1, h2] at hstays
        · exact hout
    rw [hrun, Option.map_some]
    exact ⟨_, rfl, hok, hs⟩

theorem Outstanding.window {r : Reservation}
    (h : Outstanding uPieceSize N r blocks) (hN : N < 2 ^ 64) {block : SRequestedBlock} (hm : block ∈ blocks) :
    blockBegin uPieceSize block < blockEnd uPieceSize block ∧ blockEnd uPieceSize block < 2 ^ 64 := by
  have hfits := h.fits block hm
  have hpos := hfits.pos
  have hfile := hfits.in_file
  unfold blockEnd at hfile ⊢
  omega

section

variable {peer : CTorrentPeer} (h : PeerOk uPieceSize N peer) (hN : N < 2 ^ 64) (block : SRequestedBlock)

include h hN block

/-- A block comes. -/
theorem processBlock_ok (bComplete bActive : Bool) :
    ∃ peer', processBlock uPieceSize block bComplete bActive peer = some peer' ∧
      PeerOk uPieceSize N peer' := by
  unfold processBlock
  by_cases hm : block ∈ peer.incomingBlocks
  · rw [if_neg (not_not_intro hm)]
    obtain ⟨hlt, hto⟩ := h.outstanding.window hN hm
    unfold rangeReceived
    by_cases hcomplete : bComplete = true
    · rw [if_pos hcomplete]
      exact ⟨_, rfl, h.ok, h.outstanding.sublist List.filter_sublist fun _ _ _ _ hx => hx⟩
    · rw [if_neg hcomplete]
      obtain ⟨fileParts, hcache, hcounters⟩ := cacheRange_counters h.ok.fileParts hN hlt hto
      have hout : ∀ other ∈ peer.incomingBlocks.filter (· ≠ block),
          blockEnd uPieceSize other ≤ blockBegin uPieceSize block ∨
            blockEnd uPieceSize block ≤ blockBegin uPieceSize other := fun other ho =>
        h.outstanding.others hm ho
      obtain ⟨r', hrelease, hok, hs⟩ := releaseRange_outstanding (h.ok.fileParts_of hcounters.canonical)
        (h.outstanding.sublist List.filter_sublist fun _ _ _ _ hx => hx) hN hlt hto
        _ (List.Sublist.refl _) hout
      dsimp only
      rw [hcache]
      dsimp only
      rw [hrelease]
      dsimp only
      split_ifs
      · exact cancelRequest_ok ⟨r', _, peer.uRequestVolume⟩ ⟨hok, hs⟩ hN hlt hto fun other ho => Or.inr (hout other ho)
      · exact ⟨_, rfl, hok, hs⟩
  · rw [if_pos hm]
    exact ⟨peer, rfl, h⟩

/-- A block is refused. -/
theorem processRejectRequest_ok : ∃ peer', processRejectRequest uPieceSize block peer = some peer' ∧
      PeerOk uPieceSize N peer' := by
  unfold processRejectRequest
  by_cases hm : block ∈ peer.incomingBlocks
  · obtain ⟨hlt, hto⟩ := h.outstanding.window hN hm
    obtain ⟨r', hrun, hok, hs⟩ := releaseRange_outstanding h.ok h.outstanding hN hlt hto
      (peer.incomingBlocks.filter (· ≠ block)) List.filter_sublist fun other ho => h.outstanding.others hm ho
    rw [if_neg (not_not_intro hm), hrun, Option.map_some]
    exact ⟨_, rfl, hok, hs⟩
  · rw [if_pos hm]
    exact ⟨peer, rfl, h⟩

end

/-- What a peer's functions are called with: ranges of the file, windows that are walked or past
its end, and a map that covers it. -/
def Event.Received (N : ℕ) : Event → Prop
  | Event.file fileParts => Canonical partMapOps N fileParts
  | Event.announce uBegin uEnd _ => uBegin < uEnd ∧ uEnd ≤ N
  | Event.shedule uBegin uEnd _ _ _ => Window N uBegin uEnd
  | Event.request env => PlanOk env.plan
  | Event.cancel uBegin uEnd => uBegin < uEnd ∧ uEnd < 2 ^ 64
  | _ => True

/-- A cancelled range cuts no outstanding block. -/
def Event.Meets (uPieceSize : ℕ) (peer : CTorrentPeer) : Event → Prop
  | Event.cancel uBegin uEnd => ∀ block ∈ peer.incomingBlocks, NotCut uPieceSize uBegin uEnd block
  | _ => True

/-- No cancelled range of a run cuts an outstanding block. -/
def MeetsAll (uPieceSize : ℕ) : CTorrentPeer → List Event → Prop
  | _, [] => True
  | peer, event :: events => event.Meets uPieceSize peer ∧
    ∀ peer', step uPieceSize peer event = some peer' → MeetsAll uPieceSize peer' events

/-- What a call of `RequestBlocks` is to do: the new blocks fit, cover only bytes that are scheduled
for the peer and not had before or after the call, and no byte is in two outstanding blocks. -/
structure RequestsOk (uPieceSize N : ℕ) (peer peer' : CTorrentPeer) : Prop where
  /-- The new blocks. -/
  emitted : ∃ blocks, peer'.incomingBlocks = peer.incomingBlocks ++ blocks ∧
    ∀ block ∈ blocks, Fits uPieceSize N block ∧ ∀ x, Covers uPieceSize block x →
      hasFlag (peer'.r.own x) Part.Scheduled = true ∧ hadAt peer.r x = false ∧ hadAt peer'.r x = false
  /-- The outstanding blocks. -/
  apart : peer'.incomingBlocks.Pairwise (Apart uPieceSize)

section

variable {peer : CTorrentPeer} (h : PeerOk uPieceSize N peer) (hN : N < 2 ^ 64) (hpiece : 0 < uPieceSize)
  (hpieces : N ≤ 2 ^ 32 * uPieceSize) (hlength : min uPieceSize N ≤ 2 ^ 32)

include h hN hpiece hpieces hlength

/-- A call of `RequestBlocks` on a peer that is in order. -/
theorem requestBlocks_ok {env : RequestEnv} (hplan : PlanOk env.plan) :
    ∃ peer', requestBlocks uPieceSize env peer = some peer' ∧ PeerOk uPieceSize N peer' ∧
      RequestsOk uPieceSize N peer peer' := by
  obtain ⟨s', hrun, hok, ha⟩ := requestBlocks_asks { env with uPieceSize := uPieceSize }
    (s := ⟨peer.r, peer.incomingBlocks, peer.uRequestVolume, 0⟩) h.ok hN hpiece hplan h.outstanding
  have hs : Outstanding uPieceSize N s'.r s'.requests := ha.outstanding
  have hmap : s'.requests.map toUInt32 = s'.requests :=
    (List.map_congr_left fun block hm => (hs.fits block hm).toUInt32 hpieces hlength).trans (List.map_id s'.requests)
  obtain ⟨blocks, hblocks, hbytes⟩ := ha.asked
  have hblocks' : s'.requests = peer.incomingBlocks ++ blocks := hblocks
  unfold requestBlocks
  rw [hrun, Option.map_some, hmap]
  refine ⟨_, rfl, ⟨hok, hs⟩, ⟨blocks, hblocks, fun block hm => ?_⟩, hs.apart⟩
  have hmem : block ∈ s'.requests := by
    rw [hblocks']
    exact List.mem_append_right _ hm
  have hfits := hs.fits block hmem
  refine ⟨hfits, fun x hx => ?_⟩
  have hin : x < N := lt_of_lt_of_le hx.2 hfits.in_file
  have hmissing := hbytes block hm x hx
  refine ⟨(hok.flags x).1 (hs.requested block hmem x hx), hmissing, ?_⟩
  exact (ha.had x hin).trans hmissing

/-- A step keeps a peer in order. -/
theorem step_ok {event : Event} (hr : event.Received N) (hm : event.Meets uPieceSize peer) :
    ∃ peer', step uPieceSize peer event = some peer' ∧ PeerOk uPieceSize N peer' := by
  cases event with
  | file fileParts =>
    exact ⟨_, rfl, h.ok.fileParts_of hr, h.outstanding.sublist (List.Sublist.refl _) fun _ _ _ _ hx => hx⟩
  | announce uBegin uEnd bAvailable =>
    obtain ⟨hok, hsame⟩ := announce_ok h.ok hN hr.1 hr.2 bAvailable rfl
    refine ⟨_, rfl, hok, h.outstanding.sublist (List.Sublist.refl _) fun _ _ x _ hx => ?_⟩
    rw [hsame]
    exact hx
  | shedule uBegin uEnd bStream bResult endGameVolume =>
    obtain ⟨result, hrun, hok, hp⟩ := sheduleRange_passive h.ok hN hr bStream bResult endGameVolume
    rw [step, hrun, Option.map_some]
    exact ⟨_, rfl, hok, h.outstanding.passive hp⟩
  | request env =>
    obtain ⟨peer', hrun, hok, -⟩ := requestBlocks_ok h hN hpiece hpieces hlength hr
    exact ⟨peer', hrun, hok⟩
  | block block bComplete bActive => exact processBlock_ok h hN block bComplete bActive
  | reject block => exact processRejectRequest_ok h hN block
  | cancel uBegin uEnd => exact cancelRequest_ok peer h hN hr.1 hr.2 hm
  | choke =>
    obtain ⟨r', hrun, hok, hs⟩ := releaseRange_outstanding h.ok h.outstanding hN
      (show 0 < minusOne by decide) (show minusOne < 2 ^ 64 by decide) [] (List.nil_sublist _)
      fun _ hnil => by cases hnil
    rw [step, hrun, Option.map_some]
    exact ⟨_, rfl, hok, hs⟩
  | resetSchedule =>
    obtain ⟨r', hrun, hok, hkept⟩ := releaseRange_unrequested h.ok hN
      (show 0 < minusOne by decide) (show minusOne < 2 ^ 64 by decide)
    rw [step, hrun, Option.map_some]
    exact ⟨_, rfl, hok, h.outstanding.sublist (List.Sublist.refl _) fun _ _ x _ hx => hkept x hx⟩

/-- A run keeps a peer in order. -/
theorem run_ok {events : List Event} (hr : ∀ event ∈ events, event.Received N) (hm : MeetsAll uPieceSize peer events) :
    ∃ peer', run uPieceSize peer events = some peer' ∧ PeerOk uPieceSize N peer' := by
  induction events generalizing peer with
  | nil => exact ⟨peer, rfl, h⟩
  | cons event events ih =>
    obtain ⟨hmeets, hrest⟩ := hm
    obtain ⟨peer', hstep, hok⟩ := step_ok h hN hpiece hpieces hlength (hr event List.mem_cons_self) hmeets
    rw [run, hstep, Option.bind_some]
    exact ih hok (fun other ho => hr other (List.mem_cons_of_mem _ ho)) (hrest peer' hstep)

end

/-- A new peer is in order. -/
theorem peerOk_new {fileParts : CRangeMap SPartRange} (h : Canonical partMapOps N fileParts)
    (uRequestVolume : ℕ) : PeerOk uPieceSize N (CTorrentPeer.new N fileParts uRequestVolume) := by
  have hpos : 0 < N := by
    obtain ⟨last, hm, he⟩ := h.exists_last
    rw [← he]
    exact h.positive last hm
  have hown : ∀ x, (CTorrentPeer.new N fileParts uRequestVolume).r.own x = 0 := fun x =>
    stateAt_create shareMapOps N x
  refine ⟨⟨canonical_create _ hpos, h, fun x => ?_, ?_, rfl⟩, fun _ hm => ?_, fun _ hm => ?_, List.Pairwise.nil⟩
  · rw [hown]
    simp [FlagsOk, hasFlag]
  · refine (Finset.sum_eq_zero fun x _ => ?_).symm
    exact congrArg (fun v => (hasFlag v Part.Scheduled).toNat) (hown x)
  · cases hm
  · cases hm

end Runs

section OneBlock

/-- A peer that has a file of one block, of which it announced nothing yet. -/
def blockPeer : CTorrentPeer :=
  CTorrentPeer.new 16384 (CRangeMap.create partMapOps 16384) 4

/-- An unhurried call of `RequestBlocks`. -/
def blockEnv : RequestEnv := ⟨false, 16384, 100, 100, 3, []⟩

/-- The map of the file while the block is outstanding and another transfer has got its first half. -/
def halfCached : CRangeMap SPartRange :=
  ((CRangeMap.create partMapOps 16384).setRange partMapOps 0 16384
    (SPartRange.ofStates (BitVec.ofNat 32 (Part.Scheduled ||| Part.Requested))) ESet.eAdd).setRange
      partMapOps 0 8192 (SPartRange.ofStates (BitVec.ofNat 32 Part.Cached)) ESet.eAdd

/-- The map of the file after the half was cancelled and could not be written. -/
def halfLost : CRangeMap SPartRange :=
  (CRangeMap.create partMapOps 16384).setRange partMapOps 8192 16384
    (SPartRange.ofStates (BitVec.ofNat 32 (Part.Scheduled ||| Part.Requested))) ESet.eAdd

/-- The block is asked for, half of it is cancelled and lost, and scheduled again. -/
def cutEvents : List Event :=
  [Event.announce 0 16384 true, Event.shedule 0 16384 false false 3, Event.request blockEnv,
    Event.file halfCached, Event.cancel 0 8192, Event.file halfLost,
    Event.shedule 0 16384 false false 3, Event.request blockEnv]

end OneBlock

end NeoLoader.BlockRequests
