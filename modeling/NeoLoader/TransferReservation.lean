import Mathlib.Algebra.Order.BigOperators.Group.Finset
import Mathlib.Data.BitVec
import Mathlib.Algebra.BigOperators.Intervals
import Mathlib.Algebra.Module.Basic
import NeoLoader.PartStates
import NeoLoader.RangeMapLoop

/-!
# Reservations of the transfers of a file

A transfer marks in its own map what it is scheduled to download and what it
has requested, keeps the number of its scheduled bytes, and has the map of the
file count the transfers for each byte. Six operations change the three views
together. The counters of the file's map have 16 bits, so the views agree as
long as fewer than 65536 transfers take part. Maps of joined files, the data
itself and the messages to the peers are left out.
-/

namespace NeoLoader.TransferReservation

open Tiling RangeMap PartStates

/-- A transfer's reservations together with the map of the file. -/
structure Reservation where
  /-- `m_Parts` of the transfer. -/
  parts : CRangeMap (BitVec 16)
  /-- `m_ReservedSize`. -/
  uReservedSize : ℕ
  /-- Whether `UnReserveRange` ever found less reserved than it takes back. -/
  bUnderflow : Bool
  /-- The map of the file. -/
  fileParts : CRangeMap SPartRange

/-- Length of a range, as a `uint64`. -/
def lengthOf (uBegin uEnd : ℕ) : ℕ := (uEnd + 2 ^ 64 - uBegin) % 2 ^ 64

/-- `CP2PTransfer::ReserveRange`. -/
def reserveRange (uBegin uEnd : ℕ) (uState : BitVec 32) (r : Reservation) : Reservation where
  parts := r.parts.setRange shareMapOps uBegin uEnd (uState.setWidth 16) ESet.eAdd
  uReservedSize := (r.uReservedSize + lengthOf uBegin uEnd) % 2 ^ 64
  bUnderflow := r.bUnderflow
  fileParts := r.fileParts.setRange partMapOps uBegin uEnd (SPartRange.ofStates uState) ESet.eAdd

/-- `CP2PTransfer::UnReserveRange`. -/
def unReserveRange (uBegin uEnd : ℕ) (uState : BitVec 32) (r : Reservation) : Reservation where
  parts := r.parts.setRange shareMapOps uBegin uEnd (uState.setWidth 16) ESet.eClr
  uReservedSize := (r.uReservedSize + 2 ^ 64 - lengthOf uBegin uEnd) % 2 ^ 64
  bUnderflow := r.bUnderflow || decide (r.uReservedSize < lengthOf uBegin uEnd)
  fileParts := r.fileParts.setRange partMapOps uBegin uEnd (SPartRange.ofStates uState) ESet.eClr

/-- The flag of a transfer's state. -/
def hasFlag (v : BitVec 16) (flag : ℕ) : Bool := v &&& BitVec.ofNat 16 flag != 0

section Shedule

/-- The inner loop of `SheduleRange`, over the file's map. It counts the ranges
it reserves. -/
def sheduleFileBody (endGameVolume : ℤ) (bStream : Bool) (s : Reservation × ℕ)
    (fileIter : SIterator SPartRange) : Option ((Reservation × ℕ) × SIterator SPartRange) :=
  if fileIter.uState.and (Part.Available ||| Part.Cached) ≠ 0 then some (s, fileIter)
  else if fileIter.uState.and Part.Scheduled ≠ 0 ∧ bStream = false ∧
      (fileIter.uState.uScheduled.toNat : ℤ) ≥ endGameVolume then some (s, fileIter)
  else some ((reserveRange fileIter.uBegin fileIter.uEnd (BitVec.ofNat 32 Part.Scheduled) s.1, s.2 + 1), fileIter)

/-- The outer loop of `SheduleRange`, over the transfer's map. -/
def sheduleBody (endGameVolume : ℤ) (bStream : Bool) (s : Reservation × ℕ)
    (srcIter : SIterator (BitVec 16)) : Option ((Reservation × ℕ) × SIterator (BitVec 16)) :=
  if hasFlag srcIter.uState Part.Available = false ∨ hasFlag srcIter.uState Part.Verified = false
  then some (s, srcIter)
  else if hasFlag srcIter.uState Part.Scheduled then some (s, srcIter)
  else (forRanges partMapOps (fun s => s.1.fileParts) partMapOps.default (fun _ => true)
    (sheduleFileBody endGameVolume bStream) srcIter.uBegin srcIter.uEnd s).map (·, srcIter)

/-- `CP2PTransfer::SheduleRange`. The argument `bResult` tells whether the hash of
the whole range was verified already. -/
def sheduleRange (uBegin uEnd : ℕ) (bStream bResult : Bool) (endGameVolume : ℤ)
    (r : Reservation) : Option (Reservation × Bool) :=
  if bResult then some (r, false)
  else if (r.fileParts.getRange partMapOps uBegin uEnd EMerge.eInter partMapOps.default).and
      Part.Disabled ≠ 0 then some (r, false)
  else (forRanges shareMapOps (fun s => s.1.parts) 0 (fun _ => true)
    (sheduleBody endGameVolume bStream) uBegin uEnd (r, 0)).map fun s => (s.1, decide (s.2 > 0))

end Shedule

section Release

/-- The loop of `ReleaseRange`. -/
def releaseBody (bAll : Bool) (r : Reservation) (srcIter : SIterator (BitVec 16)) :
    Option (Reservation × SIterator (BitVec 16)) :=
  if hasFlag srcIter.uState (Part.Scheduled ||| Part.Marked) ∧
      (bAll ∨ hasFlag srcIter.uState Part.Requested = false) then
    some (unReserveRange srcIter.uBegin srcIter.uEnd ((srcIter.uState &&&
      BitVec.ofNat 16 (Part.Scheduled ||| Part.Marked ||| Part.Requested)).setWidth 32) r, srcIter)
  else some (r, srcIter)

/-- `CP2PTransfer::ReleaseRange`. -/
def releaseRange (uBegin uEnd : ℕ) (bAll : Bool) (r : Reservation) : Option Reservation :=
  forRanges shareMapOps Reservation.parts 0 (fun _ => true) (releaseBody bAll) uBegin uEnd r

/-- `CP2PTransfer::CancelRequest`. -/
def cancelRequest (uBegin uEnd : ℕ) (r : Reservation) : Option Reservation :=
  if r.uReservedSize = 0 then some r else releaseRange uBegin uEnd true r

/-- The loop of `CP2PTransfer::RangeReceived`: what is neither available nor
cached is written, and cached from now on. -/
def cacheBody (fileParts : CRangeMap SPartRange) (fileIter : SIterator SPartRange) :
    Option (CRangeMap SPartRange × SIterator SPartRange) :=
  if fileIter.uState.and (Part.Available ||| Part.Cached) ≠ 0 then some (fileParts, fileIter)
  else some (fileParts.setRange partMapOps fileIter.uBegin fileIter.uEnd
    (SPartRange.ofStates (BitVec.ofNat 32 Part.Cached)) ESet.eAdd, fileIter)

/-- The part of `CP2PTransfer::RangeReceived` before the range is released. -/
def cacheRange (uBegin uEnd : ℕ) (fileParts : CRangeMap SPartRange) : Option (CRangeMap SPartRange) :=
  forRanges partMapOps id (SPartRange.ofStates (BitVec.ofNat 32 (Part.Available ||| Part.Cached)))
    (fun _ => true) cacheBody uBegin uEnd fileParts

end Release

section Request

/-- `CPartDownloader::SPart`: a range of the download plan. -/
structure SPart where
  /-- First offset of the range. -/
  uBegin : ℕ
  /-- First offset after the range. -/
  uEnd : ℕ
  /-- The range belongs to a stream. -/
  bStream : Bool
  /-- The hash of the range was verified already. -/
  bResult : Bool

/-- `CTorrentClient::SRequestedBlock`. -/
structure SRequestedBlock where
  /-- Index of the piece. -/
  index : ℕ
  /-- Offset in the piece. -/
  offset : ℕ
  /-- Length of the block. -/
  length : ℕ

/-- What a torrent peer asks its surroundings for when it requests blocks. -/
structure RequestEnv where
  /-- The file is complete or paused, or the write buffer is full. -/
  bBusy : Bool
  /-- Length of a piece. -/
  uPieceSize : ℕ
  /-- `GetRequestLimit` of the client. -/
  uRequestLimit : ℕ
  /-- The setting `BitTorrent/RequestLimit`. -/
  uVolumeLimit : ℕ
  /-- The setting `Content/EndGameVolume`. -/
  endGameVolume : ℤ
  /-- The download plan of the file, empty if nothing is to be scheduled. -/
  plan : List SPart

/-- The variables of `RequestBlocks`. -/
structure RequestState where
  /-- The reservations. -/
  r : Reservation
  /-- Blocks the client waits for. -/
  requests : List SRequestedBlock
  /-- `m_RequestVolume`. -/
  uRequestVolume : ℕ
  /-- Ranges that were requested already. -/
  uReservedCount : ℕ

variable (env : RequestEnv)

/-- Size of the next block: at most 16 KiB, and not past the piece border. -/
def blockSizeAt (uBegin uEnd : ℕ) : ℕ :=
  let uOffset := uBegin % env.uPieceSize
  let uSize := min (uEnd - uBegin) (16 * 1024)
  if uOffset + uSize > env.uPieceSize then env.uPieceSize - uOffset else uSize

/-- The inner loop of `RequestBlocks`, over the file's map. -/
def requestFileBody (s : RequestState) (fileIter : SIterator SPartRange) :
    Option (RequestState × SIterator SPartRange) :=
  if fileIter.uState.and (Part.Available ||| Part.Cached) ≠ 0 then
    (releaseRange fileIter.uBegin fileIter.uEnd true s.r).map fun r => ({ s with r := r }, fileIter)
  else if fileIter.uState.and Part.Requested ≠ 0 ∧ s.uRequestVolume ≠ 1 ∧ (fileIter.uState.and Part.Stream = 0 ∨
        (fileIter.uState.uRequested.toNat : ℤ) ≥ env.endGameVolume) then
    some ({ s with uReservedCount := s.uReservedCount + 1 }, fileIter)
  else
    let uSize := blockSizeAt env fileIter.uBegin fileIter.uEnd
    let uEnd := if fileIter.uEnd - fileIter.uBegin > uSize then fileIter.uBegin + uSize
      else fileIter.uEnd
    some ({ s with
      r := { s.r with
        parts := s.r.parts.setRange shareMapOps fileIter.uBegin uEnd (BitVec.ofNat 16 Part.Requested) ESet.eAdd
        fileParts := s.r.fileParts.setRange partMapOps fileIter.uBegin uEnd
          (SPartRange.ofStates (BitVec.ofNat 32 Part.Requested)) ESet.eAdd }
      requests := s.requests ++ [⟨fileIter.uBegin / env.uPieceSize,
        fileIter.uBegin % env.uPieceSize, uSize⟩] }, { fileIter with uEnd := uEnd })

/-- Whether more blocks may be requested. The volume is the one of before the
loop. -/
def requestMore (uRequestVolume : ℕ) (s : RequestState) : Bool :=
  decide (s.requests.length < uRequestVolume)

/-- The outer loop of `RequestBlocks`, over the transfer's map. -/
def requestBody (uRequestVolume : ℕ) (s : RequestState) (srcIter : SIterator (BitVec 16)) :
    Option (RequestState × SIterator (BitVec 16)) :=
  if hasFlag srcIter.uState Part.Scheduled = false ∨ hasFlag srcIter.uState Part.Requested then
    some (s, srcIter)
  else (forRanges partMapOps (fun s => s.r.fileParts) partMapOps.default
    (requestMore uRequestVolume) (requestFileBody env) srcIter.uBegin srcIter.uEnd s).map (·, srcIter)

/-- `RequestBlocks` up to the retry: the loops, and the new request volume. -/
def requestRound (s : RequestState) : Option RequestState :=
  let uRequestVolume := min env.uRequestLimit s.uRequestVolume
  let oldCount := s.requests.length
  (forRanges shareMapOps (fun s => s.r.parts) 0 (requestMore uRequestVolume)
    (requestBody env uRequestVolume) 0 minusOne { s with uReservedCount := 0 }).map fun s =>
      let uVolume :=
        if s.uReservedCount > 0 ∧ s.requests.length = 0 then 1
        else if oldCount = 0 ∧ s.requests.length > 0 ∧ s.uRequestVolume < env.uVolumeLimit then
          s.uRequestVolume * 2
        else if s.requests.length > s.uRequestVolume / 2 ∧ s.uRequestVolume > 4 then
          s.uRequestVolume / 2
        else s.uRequestVolume
      { s with uRequestVolume := uVolume }

/-- `CP2PTransfer::SheduleDownload`: go through the plan until something was
scheduled. -/
def sheduleDownload : List SPart → Reservation → Option (Reservation × Bool)
  | [], r => some (r, false)
  | range :: ranges, r =>
    match sheduleRange range.uBegin range.uEnd range.bStream range.bResult env.endGameVolume r with
    | none => none
    | some (r, true) => some (r, true)
    | some (r, false) => sheduleDownload ranges r

/-- `CTorrentPeer::RequestBlocks`, with one retry if nothing is requested and
something could be scheduled. -/
def requestBlocks (s : RequestState) : Option RequestState :=
  if env.bBusy then some s
  else
    match requestRound env s with
    | none => none
    | some s =>
      if s.requests.length = 0 then
        match sheduleDownload env env.plan s.r with
        | none => none
        | some (r, true) => requestRound env { s with r := r }
        | some (r, false) => some { s with r := r }
      else some s

end Request

/-- `CP2PTransfer`, as far as its reservations go. -/
structure CP2PTransfer where
  /-- `m_Parts`, absent before the first announcement. -/
  parts : Option (CRangeMap (BitVec 16))
  /-- `m_ReservedSize`. -/
  uReservedSize : ℕ
  /-- Whether `UnReserveRange` ever found less reserved than it takes back. -/
  bUnderflow : Bool

/-- The file: its transfers and its map. -/
structure CFile where
  transfers : List CP2PTransfer
  /-- The map of the file. -/
  fileParts : CRangeMap SPartRange

/-- An operation of one transfer. Without a map it does nothing. -/
def onTransfer (i : ℕ) (op : Reservation → Option Reservation) (file : CFile) : Option CFile :=
  match file.transfers[i]? with
  | none => some file
  | some t =>
    match t.parts with
    | none => some file
    | some parts => (op ⟨parts, t.uReservedSize, t.bUnderflow, file.fileParts⟩).map fun r =>
      ⟨file.transfers.set i ⟨some r.parts, r.uReservedSize, r.bUnderflow⟩, r.fileParts⟩

/-- `CFile::CancelRequest`: every transfer that is downloading cancels. -/
def cancelRequests (active : ℕ → Bool) (uBegin uEnd : ℕ) : List ℕ → CFile → Option CFile
  | [], file => some file
  | i :: is, file =>
    match if active i then onTransfer i (cancelRequest uBegin uEnd) file else some file with
    | none => none
    | some file => cancelRequests active uBegin uEnd is file

/-- `CP2PTransfer::RangeReceived`. -/
def rangeReceived (i uBegin uEnd : ℕ) (bComplete : Bool) (active : ℕ → Bool) (file : CFile) :
    Option CFile :=
  if bComplete then some file
  else
    match cacheRange uBegin uEnd file.fileParts with
    | none => none
    | some fileParts =>
      match onTransfer i (releaseRange uBegin uEnd true) { file with fileParts := fileParts } with
      | none => none
      | some file =>
        if (file.fileParts.getRange partMapOps uBegin uEnd EMerge.eUnion partMapOps.default).and Part.Requested ≠ 0 then
          cancelRequests active uBegin uEnd (List.range file.transfers.length) file
        else some file

/-- The operations. The numbers `i` are positions in the list of transfers. -/
inductive Event where
  /-- `SheduleRange`. -/
  | shedule (i uBegin uEnd : ℕ) (bStream bResult : Bool) (endGameVolume : ℤ)
  /-- `ReserveRange`. -/
  | reserve (i uBegin uEnd : ℕ)
  /-- `ReleaseRange`. -/
  | release (i uBegin uEnd : ℕ) (bAll : Bool)
  /-- `UnReserveRange`. -/
  | unReserve (i uBegin uEnd : ℕ) (uState : BitVec 16)
  /-- `RangeReceived`, with the transfers that are downloading then. -/
  | received (i uBegin uEnd : ℕ) (bComplete : Bool) (active : ℕ → Bool)
  /-- `CancelRequest`. -/
  | cancel (i uBegin uEnd : ℕ)
  /-- `RequestBlocks`, with what the client waits for and the request volume. -/
  | request (i : ℕ) (env : RequestEnv) (requests : List SRequestedBlock) (uRequestVolume : ℕ)

/-- The next state of the file. -/
def step (file : CFile) : Event → Option CFile
  | Event.shedule i uBegin uEnd bStream bResult endGameVolume => onTransfer i (fun r =>
      (sheduleRange uBegin uEnd bStream bResult endGameVolume r).map Prod.fst) file
  | Event.reserve i uBegin uEnd => onTransfer i (fun r =>
      some (reserveRange uBegin uEnd (BitVec.ofNat 32 Part.Scheduled) r)) file
  | Event.release i uBegin uEnd bAll => onTransfer i (releaseRange uBegin uEnd bAll) file
  | Event.unReserve i uBegin uEnd uState => onTransfer i (fun r =>
      some (unReserveRange uBegin uEnd (uState.setWidth 32) r)) file
  | Event.received i uBegin uEnd bComplete active =>
    rangeReceived i uBegin uEnd bComplete active file
  | Event.cancel i uBegin uEnd => onTransfer i (cancelRequest uBegin uEnd) file
  | Event.request i env requests uRequestVolume => onTransfer i (fun r =>
      (requestBlocks env ⟨r, requests, uRequestVolume, 0⟩).map RequestState.r) file

/-- A run of operations. -/
def run (file : CFile) : List Event → Option CFile
  | [] => some file
  | event :: events => (step file event).bind fun file => run file events

section Bytes

variable (v : BitVec 16)

/-- A flag of one bit is that bit. -/
theorem hasFlag_two_pow {k : ℕ} (hk : k < 16) : hasFlag v (2 ^ k) = v.getLsbD k := by
  have hpow : BitVec.ofNat 16 (2 ^ k) = BitVec.twoPow 16 k := by
    refine BitVec.eq_of_toNat_eq ?_
    rw [BitVec.toNat_twoPow, BitVec.toNat_ofNat]
  unfold hasFlag
  rw [hpow, BitVec.and_twoPow]
  cases v.getLsbD k with
  | false => rfl
  | true =>
    rw [if_pos rfl, bne_iff_ne]
    intro hzero
    have hbit := congrArg (fun w => BitVec.getLsbD w k) hzero
    simp only [BitVec.getLsbD_twoPow, hk, decide_true, Bool.and_self, BitVec.ofNat_eq_ofNat,
      BitVec.getLsbD_zero, Bool.true_eq_false] at hbit

theorem hasFlag_scheduled : hasFlag v Part.Scheduled = v.getLsbD 4 :=
  hasFlag_two_pow v (k := 4) (by decide)

theorem hasFlag_requested : hasFlag v Part.Requested = v.getLsbD 5 :=
  hasFlag_two_pow v (k := 5) (by decide)

theorem hasFlag_marked : hasFlag v Part.Marked = v.getLsbD 10 :=
  hasFlag_two_pow v (k := 10) (by decide)

/-- What a transfer may have set on a byte: what is requested is scheduled, and
nothing is marked. -/
def FlagsOk (v : BitVec 16) : Prop :=
  (hasFlag v Part.Requested = true → hasFlag v Part.Scheduled = true) ∧ hasFlag v Part.Marked = false

/-- A counter follows a flag: with the number of the other transfers that have
the flag, it counts this one too if and only if it has the flag. -/
def Follows (was now : Bool) (c c' : BitVec 16) : Prop :=
  ∀ n, c.toNat = n + was.toNat → n + 1 < 2 ^ 16 → c'.toNat = n + now.toNat

/-- Adding a flag that was not set. -/
theorem follows_add {was bit : Bool} (h : bit = true → was = false) (c : BitVec 16) :
    Follows was (was || bit) c (c + if bit then 1 else 0) := by
  intro n hc hn
  cases bit with
  | false =>
    rw [Bool.or_false, if_neg Bool.false_ne_true]
    exact (congrArg BitVec.toNat (BitVec.add_zero c)).trans hc
  | true =>
    rw [h rfl, Bool.toNat_false] at hc
    rw [if_pos rfl, Bool.or_true, BitVec.toNat_add, hc]
    exact Nat.mod_eq_of_lt hn

/-- Clearing a flag that was set. -/
theorem follows_clr {was bit : Bool} (h : bit = true → was = true) (c : BitVec 16) :
    Follows was (was && !bit) c (numClr c (if bit then 1 else 0)) := by
  intro n hc hn
  rw [toNat_numClr, hc]
  cases bit with
  | false =>
    rw [Bool.not_false, Bool.and_true, if_neg Bool.false_ne_true]
    rfl
  | true =>
    rw [h rfl, if_pos rfl]
    rfl

/-- A change of a byte keeps its flags in order, and the file's counters follow
the flags. -/
structure ByteKept (v : BitVec 16) (c : SPartRange) (v' : BitVec 16) (c' : SPartRange) : Prop where
  /-- The flags are in order. -/
  flags : FlagsOk v'
  /-- The first counter follows the scheduled flag. -/
  scheduled : Follows (hasFlag v Part.Scheduled) (hasFlag v' Part.Scheduled) c.uScheduled c'.uScheduled
  /-- The second counter follows the requested flag. -/
  requested : Follows (hasFlag v Part.Requested) (hasFlag v' Part.Requested) c.uRequested c'.uRequested

theorem byteKept_refl {v : BitVec 16} (h : FlagsOk v) (c : SPartRange) : ByteKept v c v c :=
  ⟨h, fun _ hc _ => hc, fun _ hc _ => hc⟩

theorem ByteKept.trans {v v' v'' : BitVec 16} {c c' c'' : SPartRange} (h : ByteKept v c v' c')
    (h' : ByteKept v' c' v'' c'') : ByteKept v c v'' c'' :=
  ⟨h'.flags, fun n hc hn => h'.scheduled n (h.scheduled n hc hn) hn,
    fun n hc hn => h'.requested n (h.requested n hc hn) hn⟩

/-- A wide test of a flag of 16 bits. -/
theorem wide_flag_iff (u : BitVec 16) {flag : ℕ} (hflag : flag < 2 ^ 16) :
    u.setWidth 32 &&& BitVec.ofNat 32 flag ≠ 0 ↔ hasFlag u flag = true := by
  have hwide : BitVec.ofNat 32 flag = (BitVec.ofNat 16 flag).setWidth 32 := by
    refine BitVec.eq_of_toNat_eq ?_
    rw [BitVec.toNat_setWidth, BitVec.toNat_ofNat, BitVec.toNat_ofNat]
    omega
  rw [hwide, ← BitVec.setWidth_and, hasFlag, bne_iff_ne, not_iff_not]
  constructor
  · intro he
    have hnarrow := congrArg (BitVec.setWidth 16) he
    simpa only [BitVec.setWidth_setWidth_of_le, BitVec.setWidth_eq, Nat.reduceLeDiff,
      BitVec.ofNat_eq_ofNat, BitVec.setWidth_zero] using hnarrow
  · intro he
    rw [he]
    rfl

theorem ofStates_counters (u : BitVec 16) : (SPartRange.ofStates (u.setWidth 32)).uScheduled =
        (if hasFlag u Part.Scheduled then 1 else 0) ∧
      (SPartRange.ofStates (u.setWidth 32)).uRequested = (if hasFlag u Part.Requested then 1 else 0) := by
  have hs := wide_flag_iff u (show Part.Scheduled < 2 ^ 16 by decide)
  have hr := wide_flag_iff u (show Part.Requested < 2 ^ 16 by decide)
  unfold SPartRange.ofStates
  simp only [hs, hr, and_self]

/-- Setting flags that were not set. -/
theorem byteKept_add {v u : BitVec 16} (hflags : FlagsOk (v ||| u))
    (hs : hasFlag u Part.Scheduled = true → hasFlag v Part.Scheduled = false)
    (hr : hasFlag u Part.Requested = true → hasFlag v Part.Requested = false) (c : SPartRange) :
    ByteKept v c (v ||| u) (SPartRange.makeState c (SPartRange.ofStates (u.setWidth 32)) ESet.eAdd) := by
  obtain ⟨hs', hr'⟩ := ofStates_counters u
  refine ⟨hflags, ?_, ?_⟩
  · have hor : hasFlag (v ||| u) Part.Scheduled = (hasFlag v Part.Scheduled || hasFlag u Part.Scheduled) := by
      simp only [hasFlag_scheduled, BitVec.getLsbD_or]
    have hcount := follows_add hs c.uScheduled
    rwa [← hor, ← hs'] at hcount
  · have hor : hasFlag (v ||| u) Part.Requested = (hasFlag v Part.Requested || hasFlag u Part.Requested) := by
      simp only [hasFlag_requested, BitVec.getLsbD_or]
    have hcount := follows_add hr c.uRequested
    rwa [← hor, ← hr'] at hcount

/-- Clearing flags that were set. -/
theorem byteKept_clr {v u : BitVec 16} (hflags : FlagsOk (v &&& ~~~u))
    (hs : hasFlag u Part.Scheduled = true → hasFlag v Part.Scheduled = true)
    (hr : hasFlag u Part.Requested = true → hasFlag v Part.Requested = true) (c : SPartRange) :
    ByteKept v c (v &&& ~~~u) (SPartRange.makeState c (SPartRange.ofStates (u.setWidth 32)) ESet.eClr) := by
  obtain ⟨hs', hr'⟩ := ofStates_counters u
  refine ⟨hflags, ?_, ?_⟩
  · have hand : hasFlag (v &&& ~~~u) Part.Scheduled = (hasFlag v Part.Scheduled && !hasFlag u Part.Scheduled) := by
      simp only [hasFlag_scheduled, BitVec.getLsbD_and, BitVec.getLsbD_not, Nat.reduceLT, decide_true, Bool.true_and]
    have hcount := follows_clr hs c.uScheduled
    rwa [← hand, ← hs'] at hcount
  · have hand : hasFlag (v &&& ~~~u) Part.Requested = (hasFlag v Part.Requested && !hasFlag u Part.Requested) := by
      simp only [hasFlag_requested, BitVec.getLsbD_and, BitVec.getLsbD_not, Nat.reduceLT, decide_true, Bool.true_and]
    have hcount := follows_clr hr c.uRequested
    rwa [← hand, ← hr'] at hcount

end Bytes

section Kept

variable {N : ℕ} {r : Reservation}

/-- State of a byte in the transfer's own map. -/
def Reservation.own (r : Reservation) (x : ℕ) : BitVec 16 := stateAt shareMapOps r.parts x

/-- State of a byte in the file's map. -/
def Reservation.file (r : Reservation) (x : ℕ) : SPartRange := stateAt partMapOps r.fileParts x

/-- Bytes that are scheduled in a transfer's map. -/
def scheduledBytes (N : ℕ) (parts : CRangeMap (BitVec 16)) : ℕ :=
  ∑ x ∈ Finset.range N, (hasFlag (stateAt shareMapOps parts x) Part.Scheduled).toNat

/-- A transfer's reservations are in order. -/
structure OwnOk (N : ℕ) (r : Reservation) : Prop where
  /-- The transfer's map covers the file. -/
  parts : Canonical shareMapOps N r.parts
  /-- So does the file's map. -/
  fileParts : Canonical partMapOps N r.fileParts
  /-- The flags of every byte are in order. -/
  flags : ∀ x, FlagsOk (r.own x)
  /-- The number of reserved bytes is the number of scheduled ones. -/
  reserved : r.uReservedSize = scheduledBytes N r.parts
  /-- It never went below zero. -/
  underflow : r.bUnderflow = false

/-- An operation keeps the reservations in order, and the file's counters follow
the flags. -/
structure Kept (N : ℕ) (r r' : Reservation) : Prop where
  /-- The reservations are in order. -/
  ok : OwnOk N r'
  /-- The counters follow the flags at every byte. -/
  bytes : ∀ x < N, ByteKept (r.own x) (r.file x) (r'.own x) (r'.file x)

theorem kept_refl (h : OwnOk N r) : Kept N r r := ⟨h, fun x _ => byteKept_refl (h.flags x) _⟩

theorem Kept.trans {r' r'' : Reservation} (h : Kept N r r') (h' : Kept N r' r'') : Kept N r r'' :=
  ⟨h'.ok, fun x hx => (h.bytes x hx).trans (h'.bytes x hx)⟩

/-- Bytes of a range that all change their flag change the number by the length
of the range. -/
theorem sum_toNat_eq {N uBegin uEnd : ℕ} (hlt : uBegin ≤ uEnd) (hend : uEnd ≤ N)
    {was now : ℕ → Bool} (hout : ∀ x, ¬(uBegin ≤ x ∧ x < uEnd) → now x = was x)
    (hin : ∀ x, uBegin ≤ x → x < uEnd → was x = false ∧ now x = true) :
    ∑ x ∈ Finset.range N, (now x).toNat = (∑ x ∈ Finset.range N, (was x).toNat) + (uEnd - uBegin) := by
  have hsplit : ∀ f : ℕ → ℕ, ∑ x ∈ Finset.range N, f x = (∑ x ∈ Finset.Ico 0 uBegin, f x) +
      (∑ x ∈ Finset.Ico uBegin uEnd, f x) + ∑ x ∈ Finset.Ico uEnd N, f x := fun f => by
    rw [Finset.sum_Ico_consecutive f (Nat.zero_le _) hlt,
      Finset.sum_Ico_consecutive f (Nat.zero_le _) hend, Finset.range_eq_Ico]
  have hlow : ∑ x ∈ Finset.Ico 0 uBegin, (now x).toNat =
      ∑ x ∈ Finset.Ico 0 uBegin, (was x).toNat := Finset.sum_congr rfl fun x hx => by
    rw [hout x fun h => absurd (Finset.mem_Ico.mp hx).2 (not_lt.mpr h.1)]
  have hhigh : ∑ x ∈ Finset.Ico uEnd N, (now x).toNat =
      ∑ x ∈ Finset.Ico uEnd N, (was x).toNat := Finset.sum_congr rfl fun x hx => by
    rw [hout x fun h => absurd h.2 (not_lt.mpr (Finset.mem_Ico.mp hx).1)]
  have hnow : ∑ x ∈ Finset.Ico uBegin uEnd, (now x).toNat = uEnd - uBegin := by
    rw [Finset.sum_congr rfl fun x hx => congrArg Bool.toNat
      (hin x (Finset.mem_Ico.mp hx).1 (Finset.mem_Ico.mp hx).2).2, Finset.sum_const,
      Nat.card_Ico, smul_eq_mul]
    exact Nat.mul_one _
  have hwas : ∑ x ∈ Finset.Ico uBegin uEnd, (was x).toNat = 0 :=
    Finset.sum_eq_zero fun x hx => by
      rw [(hin x (Finset.mem_Ico.mp hx).1 (Finset.mem_Ico.mp hx).2).1, Bool.toNat_false]
  rw [hsplit, hsplit fun x => (was x).toNat, hlow, hhigh, hnow, hwas]
  omega

theorem scheduledBytes_le (N : ℕ) (parts : CRangeMap (BitVec 16)) : scheduledBytes N parts ≤ N := by
  unfold scheduledBytes
  refine (Finset.sum_le_card_nsmul _ _ 1 fun x _ => Bool.toNat_le _).trans ?_
  rw [Finset.card_range, smul_eq_mul, Nat.mul_one]

theorem lengthOf_eq {uBegin uEnd : ℕ} (hlt : uBegin < uEnd) (hend : uEnd < 2 ^ 64) :
    lengthOf uBegin uEnd = uEnd - uBegin := by
  unfold lengthOf
  omega

/-- An update of both maps on a range keeps the reservations in order if it does
so at each byte, and the number of reserved bytes is right after it. -/
theorem kept_setRange (h : OwnOk N r) (hN : N < 2 ^ 64) {uBegin uEnd : ℕ} (hlt : uBegin < uEnd)
    (hend : uEnd ≤ N) (u : BitVec 16) (eMode : ESet) {r' : Reservation}
    (hparts : r'.parts = r.parts.setRange shareMapOps uBegin uEnd u eMode)
    (hfile : r'.fileParts = r.fileParts.setRange partMapOps uBegin uEnd (SPartRange.ofStates (u.setWidth 32)) eMode)
    (hbytes : ∀ x, uBegin ≤ x → x < uEnd → ByteKept (r.own x) (r.file x) (valueMakeState (r.own x) u eMode)
      (SPartRange.makeState (r.file x) (SPartRange.ofStates (u.setWidth 32)) eMode))
    (hreserved : r'.uReservedSize = scheduledBytes N r'.parts) (hunderflow : r'.bUnderflow = false) : Kept N r r' := by
  have hown : ∀ x, r'.own x = if uBegin ≤ x ∧ x < uEnd then valueMakeState (r.own x) u eMode
      else r.own x := fun x => by
    unfold Reservation.own
    rw [hparts, stateAt_setRange h.parts hN hlt hend]
    rfl
  have hfiles : ∀ x, r'.file x = if uBegin ≤ x ∧ x < uEnd then
      SPartRange.makeState (r.file x) (SPartRange.ofStates (u.setWidth 32)) eMode
      else r.file x := fun x => by
    unfold Reservation.file
    rw [hfile, stateAt_setRange h.fileParts hN hlt hend]
    rfl
  have hall : ∀ x, ByteKept (r.own x) (r.file x) (r'.own x) (r'.file x) := fun x => by
    rw [hown, hfiles]
    by_cases hx : uBegin ≤ x ∧ x < uEnd
    · rw [if_pos hx, if_pos hx]
      exact hbytes x hx.1 hx.2
    · rw [if_neg hx, if_neg hx]
      exact byteKept_refl (h.flags x) _
  refine ⟨⟨?_, ?_, fun x => (hall x).flags, hreserved, hunderflow⟩, fun x _ => hall x⟩
  · rw [hparts]
    exact setRange_canonical h.parts hN hlt hend _ _
  · rw [hfile]
    exact setRange_canonical h.fileParts hN hlt hend _ _

end Kept

section Elementary

variable {N : ℕ} {r : Reservation}

/-- What `ReleaseRange` takes back from a byte. -/
def heldFlags (v : BitVec 16) : BitVec 16 :=
  v &&& BitVec.ofNat 16 (Part.Scheduled ||| Part.Marked ||| Part.Requested)

theorem hasFlag_heldFlags (v : BitVec 16) : hasFlag (heldFlags v) Part.Scheduled = hasFlag v Part.Scheduled ∧
      hasFlag (heldFlags v) Part.Requested = hasFlag v Part.Requested ∧
      hasFlag (heldFlags v) Part.Marked = hasFlag v Part.Marked := by
  have h4 : (BitVec.ofNat 16 (Part.Scheduled ||| Part.Marked ||| Part.Requested)).getLsbD 4 =
      true := by decide
  have h5 : (BitVec.ofNat 16 (Part.Scheduled ||| Part.Marked ||| Part.Requested)).getLsbD 5 =
      true := by decide
  have h10 : (BitVec.ofNat 16 (Part.Scheduled ||| Part.Marked ||| Part.Requested)).getLsbD 10 =
      true := by decide
  simp only [heldFlags, hasFlag_scheduled, hasFlag_requested, hasFlag_marked, BitVec.getLsbD_and,
    h4, h5, h10, Bool.and_true, and_self]

/-- Without its held flags a byte has none of them. -/
theorem hasFlag_clr_heldFlags (v : BitVec 16) : hasFlag (v &&& ~~~heldFlags v) Part.Scheduled = false ∧
      hasFlag (v &&& ~~~heldFlags v) Part.Requested = false ∧
      hasFlag (v &&& ~~~heldFlags v) Part.Marked = false := by
  obtain ⟨hs, hr, hm⟩ := hasFlag_heldFlags v
  rw [hasFlag_scheduled, hasFlag_scheduled] at hs
  rw [hasFlag_requested, hasFlag_requested] at hr
  rw [hasFlag_marked, hasFlag_marked] at hm
  simp only [hasFlag_scheduled, hasFlag_requested, hasFlag_marked, BitVec.getLsbD_and,
    BitVec.getLsbD_not, hs, hr, hm, Nat.reduceLT, decide_true, Bool.true_and, Bool.and_not_self,
    and_self]

/-- The scheduled bytes after one range changed. -/
theorem scheduledBytes_setRange {parts : CRangeMap (BitVec 16)}
    (h : Canonical shareMapOps N parts) (hN : N < 2 ^ 64) {uBegin uEnd : ℕ} (hlt : uBegin < uEnd)
    (hend : uEnd ≤ N) (u : BitVec 16) (eMode : ESet) :
    scheduledBytes N (parts.setRange shareMapOps uBegin uEnd u eMode) =
      ∑ x ∈ Finset.range N, (hasFlag (if uBegin ≤ x ∧ x < uEnd then
        valueMakeState (stateAt shareMapOps parts x) u eMode else stateAt shareMapOps parts x)
          Part.Scheduled).toNat := by
  unfold scheduledBytes
  refine Finset.sum_congr rfl fun x _ => ?_
  rw [stateAt_setRange h hN hlt hend]
  rfl

section

variable (h : OwnOk N r) (hN : N < 2 ^ 64) {uBegin uEnd : ℕ} (hlt : uBegin < uEnd) (hend : uEnd ≤ N)

include h hN hlt hend

theorem kept_reserve (hfree : ∀ x, uBegin ≤ x → x < uEnd → hasFlag (r.own x) Part.Scheduled = false) :
    Kept N r (reserveRange uBegin uEnd (BitVec.ofNat 32 Part.Scheduled) r) := by
  have hbit : (BitVec.ofNat 16 Part.Scheduled).getLsbD 4 = true := by decide
  have hbit5 : (BitVec.ofNat 16 Part.Scheduled).getLsbD 5 = false := by decide
  have hbit10 : (BitVec.ofNat 16 Part.Scheduled).getLsbD 10 = false := by decide
  have hset : ∀ v : BitVec 16, hasFlag (v ||| BitVec.ofNat 16 Part.Scheduled) Part.Scheduled =
      true := fun v => by
    rw [hasFlag_scheduled, BitVec.getLsbD_or, hbit, Bool.or_true]
  have hsum : scheduledBytes N (r.parts.setRange shareMapOps uBegin uEnd (BitVec.ofNat 16 Part.Scheduled) ESet.eAdd) =
      scheduledBytes N r.parts + (uEnd - uBegin) := by
    rw [scheduledBytes_setRange h.parts hN hlt hend]
    refine sum_toNat_eq hlt.le hend (fun x hx => by rw [if_neg hx]) fun x h1 h2 => ⟨?_, ?_⟩
    · exact hfree x h1 h2
    · rw [if_pos ⟨h1, h2⟩]
      exact hset _
  have hle := scheduledBytes_le N (r.parts.setRange shareMapOps uBegin uEnd (BitVec.ofNat 16 Part.Scheduled) ESet.eAdd)
  refine kept_setRange h hN hlt hend (BitVec.ofNat 16 Part.Scheduled) ESet.eAdd rfl rfl
    (fun x h1 h2 => byteKept_add ⟨fun _ => hset _, ?_⟩ (fun _ => hfree x h1 h2) (fun hr => ?_) _)
    ?_ h.underflow
  · have hm := (h.flags x).2
    rw [hasFlag_marked] at hm
    rw [hasFlag_marked, BitVec.getLsbD_or, hm, hbit10, Bool.or_false]
  · rw [hasFlag_requested, hbit5] at hr
    cases hr
  · have hres := h.reserved
    unfold reserveRange
    dsimp only
    rw [lengthOf_eq hlt (by omega), hres]
    exact (Nat.mod_eq_of_lt (by omega)).trans hsum.symm

/-- Taking back what is held on a range that is scheduled. -/
theorem kept_unReserve {u : BitVec 16} (hheld : ∀ x, uBegin ≤ x → x < uEnd → u = heldFlags (r.own x))
    (hset : ∀ x, uBegin ≤ x → x < uEnd → hasFlag (r.own x) Part.Scheduled = true) :
    Kept N r (unReserveRange uBegin uEnd (u.setWidth 32) r) := by
  have hnarrow : (u.setWidth 32).setWidth 16 = u := by
    simp only [BitVec.setWidth_setWidth_of_le, BitVec.setWidth_eq, Nat.reduceLeDiff]
  have hparts : (unReserveRange uBegin uEnd (u.setWidth 32) r).parts =
      r.parts.setRange shareMapOps uBegin uEnd u ESet.eClr := by
    unfold unReserveRange
    rw [hnarrow]
  have hsum : scheduledBytes N r.parts = scheduledBytes N (r.parts.setRange shareMapOps uBegin uEnd
      u ESet.eClr) + (uEnd - uBegin) := by
    rw [scheduledBytes_setRange h.parts hN hlt hend]
    refine sum_toNat_eq hlt.le hend (fun x hx => by rw [if_neg hx]) fun x h1 h2 => ⟨?_, ?_⟩
    · rw [if_pos ⟨h1, h2⟩, hheld x h1 h2]
      exact (hasFlag_clr_heldFlags _).1
    · exact hset x h1 h2
  have hle := scheduledBytes_le N r.parts
  have hres := h.reserved
  refine kept_setRange h hN hlt hend u ESet.eClr hparts rfl (fun x h1 h2 => ?_) ?_ ?_
  · rw [hheld x h1 h2]
    obtain ⟨hs, hr, hm⟩ := hasFlag_clr_heldFlags (r.own x)
    obtain ⟨hs', hr', -⟩ := hasFlag_heldFlags (r.own x)
    refine byteKept_clr ⟨fun hreq => ?_, hm⟩ (fun hflag => hs' ▸ hflag) (fun hflag => hr' ▸ hflag) _
    rw [hr] at hreq
    cases hreq
  · rw [hparts]
    unfold unReserveRange
    dsimp only
    rw [lengthOf_eq hlt (by omega), hres]
    omega
  · unfold unReserveRange
    dsimp only
    rw [lengthOf_eq hlt (by omega), h.underflow, Bool.false_or, decide_eq_false_iff_not]
    omega

/-- Requesting a range that is scheduled and was not requested. -/
theorem kept_request (hset : ∀ x, uBegin ≤ x → x < uEnd → hasFlag (r.own x) Part.Scheduled = true)
    (hfree : ∀ x, uBegin ≤ x → x < uEnd → hasFlag (r.own x) Part.Requested = false) :
    Kept N r { r with
      parts := r.parts.setRange shareMapOps uBegin uEnd (BitVec.ofNat 16 Part.Requested) ESet.eAdd
      fileParts := r.fileParts.setRange partMapOps uBegin uEnd
        (SPartRange.ofStates (BitVec.ofNat 32 Part.Requested)) ESet.eAdd } := by
  have hbit4 : (BitVec.ofNat 16 Part.Requested).getLsbD 4 = false := by decide
  have hbit10 : (BitVec.ofNat 16 Part.Requested).getLsbD 10 = false := by decide
  have hor : ∀ v : BitVec 16, hasFlag (v ||| BitVec.ofNat 16 Part.Requested) Part.Scheduled =
      hasFlag v Part.Scheduled := fun v => by
    rw [hasFlag_scheduled, hasFlag_scheduled, BitVec.getLsbD_or, hbit4, Bool.or_false]
  refine kept_setRange h hN hlt hend (BitVec.ofNat 16 Part.Requested) ESet.eAdd rfl rfl
    (fun x h1 h2 => byteKept_add ⟨fun _ => ?_, ?_⟩ (fun hs => ?_) (fun _ => hfree x h1 h2) _)
    ?_ h.underflow
  · rw [hor]
    exact hset x h1 h2
  · have hm := (h.flags x).2
    rw [hasFlag_marked] at hm
    rw [hasFlag_marked, BitVec.getLsbD_or, hm, hbit10, Bool.or_false]
  · rw [hasFlag_scheduled, hbit4] at hs
    cases hs
  · dsimp only
    rw [scheduledBytes_setRange h.parts hN hlt hend, h.reserved]
    unfold scheduledBytes
    refine Finset.sum_congr rfl fun x _ => ?_
    split_ifs
    · exact congrArg Bool.toNat (hor _).symm
    · rfl

end

end Elementary

section Walks

variable {N : ℕ} {r : Reservation}

/-- A loop over a window has come to an offset: the reservations are in order,
and the transfer's bytes it has not come to are as they were. -/
structure Walked (N : ℕ) (r : Reservation) (uFrom uTo cur : ℕ) (r' : Reservation) : Prop where
  /-- The reservations are kept in order. -/
  kept : Kept N r r'
  /-- The transfer's map was only changed by updates. -/
  later : Later r.parts r'.parts
  /-- So was the file's map. -/
  laterFile : Later r.fileParts r'.fileParts
  /-- The walk stays in its window. -/
  le : cur ≤ uTo
  /-- The other bytes are as they were. -/
  ahead : ∀ x, x < uFrom ∨ cur ≤ x → r'.own x = r.own x

theorem walked_refl (h : OwnOk N r) {uFrom uTo : ℕ} (hle : uFrom ≤ uTo) : Walked N r uFrom uTo uFrom r :=
  ⟨kept_refl h, later_refl _, later_refl _, hle, fun _ _ => rfl⟩

theorem Walked.step {uFrom uTo cur uEnd : ℕ} {r' r'' : Reservation}
    (h : Walked N r uFrom uTo cur r') (hk : Kept N r' r'') (hl : Later r'.parts r''.parts)
    (hlf : Later r'.fileParts r''.fileParts) (hfrom : uFrom ≤ cur) (hle : cur ≤ uEnd) (hto : uEnd ≤ uTo)
    (hout : ∀ x, x < cur ∨ uEnd ≤ x → r''.own x = r'.own x) : Walked N r uFrom uTo uEnd r'' := by
  refine ⟨h.kept.trans hk, h.later.trans hl, h.laterFile.trans hlf, hto, fun x hx => ?_⟩
  rw [hout x (by omega), h.ahead x (by omega)]

theorem Walked.skip {uFrom uTo cur uEnd : ℕ} {r' : Reservation} (h : Walked N r uFrom uTo cur r')
    (hfrom : uFrom ≤ cur) (hle : cur ≤ uEnd) (hto : uEnd ≤ uTo) : Walked N r uFrom uTo uEnd r' :=
  h.step (kept_refl h.kept.ok) (later_refl _) (later_refl _) hfrom hle hto fun _ _ => rfl

theorem own_setRange (h : OwnOk N r) (hN : N < 2 ^ 64) {uBegin uEnd : ℕ} (hlt : uBegin < uEnd)
    (hend : uEnd ≤ N) (u : BitVec 16) (eMode : ESet) (r' : Reservation)
    (hparts : r'.parts = r.parts.setRange shareMapOps uBegin uEnd u eMode) :
    Later r.parts r'.parts ∧ ∀ x, x < uBegin ∨ uEnd ≤ x → r'.own x = r.own x := by
  constructor
  · rw [hparts]
    exact later_setRange _ _ _ _ _
  · intro x hx
    unfold Reservation.own
    rw [hparts, stateAt_setRange h.parts hN hlt hend, if_neg (by omega)]

theorem hasFlag_scheduled_or_marked {v : BitVec 16}
    (h : hasFlag v (Part.Scheduled ||| Part.Marked) = true) (hm : hasFlag v Part.Marked = false) :
    hasFlag v Part.Scheduled = true := by
  by_contra hne
  have hs := eq_false_of_ne_true hne
  unfold hasFlag at h hs hm
  rw [bne_eq_false_iff_eq] at hs hm
  have hor : BitVec.ofNat 16 (Part.Scheduled ||| Part.Marked) =
      BitVec.ofNat 16 Part.Scheduled ||| BitVec.ofNat 16 Part.Marked := by decide
  rw [hor, BitVec.and_or_distrib_left, hs, hm] at h
  cases h

theorem AtRange.own {uFrom uTo : ℕ} {it : SIterator (BitVec 16)}
    (h : AtRange shareMapOps N r.parts 0 uFrom uTo it) {x : ℕ} (h1 : it.uBegin ≤ x)
    (h2 : x < it.uEnd) : r.own x = it.uState := by
  have hsame := h.same x h1 h2
  rwa [CRangeMap.masked, if_neg (show ¬shareMapOps.stateSet 0 = true by decide)] at hsame

/-- The loop of `ReleaseRange` keeps the reservations in order. -/
theorem releaseBody_walked (hN : N < 2 ^ 64) (uBegin uEnd : ℕ) (bAll : Bool) :
    BodyOk shareMapOps N Reservation.parts 0 (fun _ => true) (releaseBody bAll) uBegin
      uEnd fun cur r' => Walked N r uBegin uEnd cur r' := by
  intro r' it hw _ hat
  have hfrom := hat.uFrom_le
  have hlt' := hat.lt
  have hend := hat.uEnd_le
  have hto' := hat.le_uTo
  have hok := hw.kept.ok
  unfold releaseBody
  split_ifs with hheld
  · have hset : ∀ x, it.uBegin ≤ x → x < it.uEnd → hasFlag (r'.own x) Part.Scheduled = true := fun x h1 h2 => by
      have hm := (hok.flags x).2
      rw [AtRange.own hat h1 h2] at hm ⊢
      exact hasFlag_scheduled_or_marked hheld.1 hm
    have hk := kept_unReserve hok hN hlt' hend (u := heldFlags it.uState)
      (fun x h1 h2 => by rw [AtRange.own hat h1 h2]) hset
    obtain ⟨hl, hout⟩ := own_setRange hok hN hlt' hend _ ESet.eClr
      (unReserveRange it.uBegin it.uEnd ((heldFlags it.uState).setWidth 32) r') rfl
    exact ⟨_, it.uEnd, rfl, hlt', le_rfl, hl, hw.step hk hl (later_setRange _ _ _ _ _) hfrom hlt'.le hto' hout⟩
  · exact ⟨r', it.uEnd, rfl, hlt', le_rfl, later_refl _, hw.skip hfrom hlt'.le hto'⟩

theorem releaseRange_walked (h : OwnOk N r) (hN : N < 2 ^ 64) {uBegin uEnd : ℕ}
    (hlt : uBegin < uEnd) (hto : uEnd < 2 ^ 64) (bAll : Bool) :
    ∃ r' cur, releaseRange uBegin uEnd bAll r = some r' ∧ Walked N r uBegin uEnd cur r' := by
  obtain ⟨r', cur, hrun, hw, -⟩ := forRanges_spec hN hlt hto
    (fun cur s hw => hw.kept.ok.parts) (releaseBody_walked hN uBegin uEnd bAll)
    (walked_refl h hlt.le)
  exact ⟨r', cur, hrun, hw⟩

/-- The inner loop of `SheduleRange` keeps the reservations in order, on a range that
is not scheduled. -/
theorem sheduleFileBody_walked (hN : N < 2 ^ 64) {uBegin uEnd : ℕ}
    (hfree : ∀ x, uBegin ≤ x → x < uEnd → hasFlag (r.own x) Part.Scheduled = false)
    (endGameVolume : ℤ) (bStream : Bool) :
    BodyOk partMapOps N (fun s : Reservation × ℕ => s.1.fileParts) partMapOps.default
      (fun _ => true) (sheduleFileBody endGameVolume bStream) uBegin uEnd
      fun cur s' => Walked N r uBegin uEnd cur s'.1 := by
  intro s' it hw _ hat
  have hfrom := hat.uFrom_le
  have hlt' := hat.lt
  have hend := hat.uEnd_le
  have hto' := hat.le_uTo
  have hok := hw.kept.ok
  unfold sheduleFileBody
  split_ifs with hdone hreserved
  · exact ⟨s', it.uEnd, rfl, hlt', le_rfl, later_refl _, hw.skip hfrom hlt'.le hto'⟩
  · exact ⟨s', it.uEnd, rfl, hlt', le_rfl, later_refl _, hw.skip hfrom hlt'.le hto'⟩
  · have hk := kept_reserve hok hN hlt' hend fun x h1 h2 => by
      rw [hw.ahead x (Or.inr h1)]
      exact hfree x (by omega) (by omega)
    obtain ⟨hl, hout⟩ := own_setRange hok hN hlt' hend _ ESet.eAdd
      (reserveRange it.uBegin it.uEnd (BitVec.ofNat 32 Part.Scheduled) s'.1) rfl
    exact ⟨_, it.uEnd, rfl, hlt', le_rfl, later_setRange _ _ _ _ _,
      hw.step hk hl (later_setRange _ _ _ _ _) hfrom hlt'.le hto' hout⟩

/-- The inner loop of `SheduleRange` reserves a range that is not scheduled. -/
theorem sheduleFile_walked {s : Reservation × ℕ} (h : OwnOk N s.1) (hN : N < 2 ^ 64)
    {uBegin uEnd : ℕ} (hlt : uBegin < uEnd) (hto : uEnd < 2 ^ 64)
    (hfree : ∀ x, uBegin ≤ x → x < uEnd → hasFlag (s.1.own x) Part.Scheduled = false)
    (endGameVolume : ℤ) (bStream : Bool) :
    ∃ s' cur, forRanges partMapOps (fun s : Reservation × ℕ => s.1.fileParts) partMapOps.default
        (fun _ => true) (sheduleFileBody endGameVolume bStream) uBegin uEnd s = some s' ∧
      Walked N s.1 uBegin uEnd cur s'.1 := by
  obtain ⟨s', cur, hrun, hw, -⟩ := forRanges_spec hN hlt hto (fun cur s hw => hw.kept.ok.fileParts)
    (sheduleFileBody_walked hN hfree endGameVolume bStream) (walked_refl h hlt.le)
  exact ⟨s', cur, hrun, hw⟩

/-- The outer loop of `SheduleRange` keeps the reservations in order. -/
theorem sheduleBody_walked (hN : N < 2 ^ 64) (uBegin uEnd : ℕ) (endGameVolume : ℤ) (bStream : Bool) :
    BodyOk shareMapOps N (fun s : Reservation × ℕ => s.1.parts) 0 (fun _ => true)
      (sheduleBody endGameVolume bStream) uBegin uEnd
      fun cur s => Walked N r uBegin uEnd cur s.1 := by
  intro s it hw _ hat
  have hfrom := hat.uFrom_le
  have hlt' := hat.lt
  have hend := hat.uEnd_le
  have hto' := hat.le_uTo
  have hok := hw.kept.ok
  unfold sheduleBody
  split_ifs with hmissing hreserved
  · exact ⟨s, it.uEnd, rfl, hlt', le_rfl, later_refl _, hw.skip hfrom hlt'.le hto'⟩
  · exact ⟨s, it.uEnd, rfl, hlt', le_rfl, later_refl _, hw.skip hfrom hlt'.le hto'⟩
  · obtain ⟨s', cur, hrun, hw'⟩ := sheduleFile_walked hok hN hlt' (by omega) (fun x h1 h2 => by
        rw [AtRange.own hat h1 h2]
        exact eq_false_of_ne_true hreserved) endGameVolume bStream
    have hle := hw'.le
    rw [hrun, Option.map_some]
    exact ⟨s', it.uEnd, rfl, hlt', le_rfl, hw'.later, hw.step hw'.kept hw'.later hw'.laterFile hfrom hlt'.le hto'
        fun x hx => hw'.ahead x (by omega)⟩

section

variable (h : OwnOk N r) (hN : N < 2 ^ 64) {uBegin uEnd : ℕ} (hlt : uBegin < uEnd) (hto : uEnd < 2 ^ 64)

include h hN hlt hto

/-- `SheduleRange` keeps the reservations in order. -/
theorem sheduleRange_kept (bStream bResult : Bool) (endGameVolume : ℤ) :
    ∃ result, sheduleRange uBegin uEnd bStream bResult endGameVolume r = some result ∧
      Kept N r result.1 := by
  unfold sheduleRange
  split_ifs
  · exact ⟨_, rfl, kept_refl h⟩
  · exact ⟨_, rfl, kept_refl h⟩
  · obtain ⟨s', cur, hrun, hw, -⟩ := forRanges_spec hN hlt hto
      (fun cur s hw => hw.kept.ok.parts) (sheduleBody_walked hN uBegin uEnd endGameVolume bStream)
      (s := (r, 0)) (walked_refl h hlt.le)
    rw [hrun, Option.map_some]
    exact ⟨_, rfl, hw.kept⟩

theorem cancelRequest_kept : ∃ r', cancelRequest uBegin uEnd r = some r' ∧ Kept N r r' := by
  unfold cancelRequest
  split_ifs
  · exact ⟨r, rfl, kept_refl h⟩
  · obtain ⟨r', cur, hrun, hw⟩ := releaseRange_walked h hN hlt hto true
    exact ⟨r', hrun, hw.kept⟩

end

end Walks

section Requests

variable {N : ℕ} (env : RequestEnv)

theorem blockSizeAt_pos (hpiece : 0 < env.uPieceSize) {uBegin uEnd : ℕ} (hlt : uBegin < uEnd) :
    0 < blockSizeAt env uBegin uEnd := by
  have hmod := Nat.mod_lt uBegin hpiece
  unfold blockSizeAt
  dsimp only
  split_ifs <;> omega

/-- The inner loop of `RequestBlocks` keeps the reservations in order, on a range
that is scheduled and not requested. -/
theorem requestFileBody_walked {r : Reservation} (hN : N < 2 ^ 64) (hpiece : 0 < env.uPieceSize) {uBegin uEnd : ℕ}
    (hset : ∀ x, uBegin ≤ x → x < uEnd → hasFlag (r.own x) Part.Scheduled = true)
    (hfree : ∀ x, uBegin ≤ x → x < uEnd → hasFlag (r.own x) Part.Requested = false) (uRequestVolume : ℕ) :
    BodyOk partMapOps N (fun s : RequestState => s.r.fileParts) partMapOps.default
      (requestMore uRequestVolume) (requestFileBody env) uBegin uEnd
      fun cur s' => Walked N r uBegin uEnd cur s'.r := by
  intro s' it hw _ hat
  have hfrom := hat.uFrom_le
  have hlt' := hat.lt
  have hend := hat.uEnd_le
  have hto' := hat.le_uTo
  have hok := hw.kept.ok
  unfold requestFileBody
  split_ifs with hdone hbusy
  · obtain ⟨r', cur, hrun, hw'⟩ := releaseRange_walked hok hN hlt' (by omega) true
    have hle := hw'.le
    rw [hrun, Option.map_some]
    exact ⟨_, it.uEnd, rfl, hlt', le_rfl, hw'.laterFile, hw.step hw'.kept hw'.later hw'.laterFile hfrom hlt'.le hto'
        fun x hx => hw'.ahead x (by omega)⟩
  · exact ⟨_, it.uEnd, rfl, hlt', le_rfl, later_refl _, hw.skip hfrom hlt'.le hto'⟩
  · have hpos := blockSizeAt_pos env hpiece hlt'
    have hcut : ∀ uSize, 0 < uSize → it.uBegin < (if it.uEnd - it.uBegin > uSize then
        it.uBegin + uSize else it.uEnd) ∧ (if it.uEnd - it.uBegin > uSize then
        it.uBegin + uSize else it.uEnd) ≤ it.uEnd := fun uSize h => by split_ifs <;> omega
    obtain ⟨hlow, hhigh⟩ := hcut _ hpos
    have hahead : ∀ x, it.uBegin ≤ x → s'.r.own x = r.own x := fun x hx =>
      hw.ahead x (Or.inr hx)
    have hk := kept_request hok hN hlow (by omega)
      (fun x h1 h2 => by rw [hahead x h1]; exact hset x (by omega) (by omega))
      (fun x h1 h2 => by rw [hahead x h1]; exact hfree x (by omega) (by omega))
    obtain ⟨hl, hout⟩ := own_setRange hok hN hlow (by omega) (BitVec.ofNat 16 Part.Requested)
      ESet.eAdd { s'.r with parts := _, fileParts := _ } rfl
    exact ⟨_, _, rfl, hlow, hhigh, later_setRange _ _ _ _ _,
      hw.step hk hl (later_setRange _ _ _ _ _) hfrom hlow.le (by omega) hout⟩

variable {s : RequestState}

/-- The inner loop of `RequestBlocks` on such a range. -/
theorem requestFile_walked (h : OwnOk N s.r) (hN : N < 2 ^ 64)
    (hpiece : 0 < env.uPieceSize) {uBegin uEnd : ℕ} (hlt : uBegin < uEnd) (hto : uEnd < 2 ^ 64)
    (hset : ∀ x, uBegin ≤ x → x < uEnd → hasFlag (s.r.own x) Part.Scheduled = true)
    (hfree : ∀ x, uBegin ≤ x → x < uEnd → hasFlag (s.r.own x) Part.Requested = false) (uRequestVolume : ℕ) :
    ∃ s' cur, forRanges partMapOps (fun s : RequestState => s.r.fileParts) partMapOps.default
        (requestMore uRequestVolume) (requestFileBody env) uBegin uEnd s = some s' ∧
      Walked N s.r uBegin uEnd cur s'.r := by
  obtain ⟨s', cur, hrun, hw, -⟩ := forRanges_spec hN hlt hto (fun cur s hw => hw.kept.ok.fileParts)
    (requestFileBody_walked env hN hpiece hset hfree uRequestVolume) (walked_refl h hlt.le)
  exact ⟨s', cur, hrun, hw⟩

/-- The outer loop of `RequestBlocks` keeps the reservations in order. -/
theorem requestBody_walked {r : Reservation} (hN : N < 2 ^ 64) (hpiece : 0 < env.uPieceSize) (uRequestVolume : ℕ) :
    BodyOk shareMapOps N (fun s : RequestState => s.r.parts) 0 (requestMore uRequestVolume)
      (requestBody env uRequestVolume) 0 minusOne
      fun cur s' => Walked N r 0 minusOne cur s'.r := by
  intro s' it hw _ hat
  have hfrom := hat.uFrom_le
  have hlt' := hat.lt
  have hend := hat.uEnd_le
  have hto' := hat.le_uTo
  unfold requestBody
  split_ifs with hskip
  · exact ⟨s', it.uEnd, rfl, hlt', le_rfl, later_refl _, hw.skip hfrom hlt'.le hto'⟩
  · rw [not_or, Bool.not_eq_false, Bool.not_eq_true] at hskip
    obtain ⟨s'', cur, hrun, hw'⟩ := requestFile_walked env hw.kept.ok hN hpiece hlt' (by omega)
      (fun x h1 h2 => by rw [AtRange.own hat h1 h2]; exact hskip.1)
      (fun x h1 h2 => by rw [AtRange.own hat h1 h2]; exact hskip.2)
      uRequestVolume
    have hle := hw'.le
    rw [hrun, Option.map_some]
    exact ⟨s'', it.uEnd, rfl, hlt', le_rfl, hw'.later, hw.step hw'.kept hw'.later hw'.laterFile hfrom hlt'.le hto'
        fun x hx => hw'.ahead x (by omega)⟩

/-- One round of `RequestBlocks` keeps the reservations in order. -/
theorem requestRound_kept (h : OwnOk N s.r) (hN : N < 2 ^ 64) (hpiece : 0 < env.uPieceSize) :
    ∃ s', requestRound env s = some s' ∧ Kept N s.r s'.r := by
  obtain ⟨s', cur, hrun, hw, -⟩ := forRanges_spec hN (show 0 < minusOne by decide)
    (show minusOne < 2 ^ 64 by decide) (fun cur s hw => hw.kept.ok.parts)
    (requestBody_walked env hN hpiece (min env.uRequestLimit s.uRequestVolume))
    (s := { s with uReservedCount := 0 }) (walked_refl h (Nat.zero_le _))
  unfold requestRound
  dsimp only
  rw [hrun, Option.map_some]
  exact ⟨_, rfl, hw.kept⟩

/-- The ranges of a download plan are not empty. -/
def PlanOk (plan : List SPart) : Prop :=
  ∀ range ∈ plan, range.uBegin < range.uEnd ∧ range.uEnd < 2 ^ 64

/-- `SheduleDownload` keeps the reservations in order. -/
theorem sheduleDownload_kept {r : Reservation} (h : OwnOk N r) (hN : N < 2 ^ 64)
    {plan : List SPart} (hplan : PlanOk plan) :
    ∃ result, sheduleDownload env plan r = some result ∧ Kept N r result.1 := by
  induction plan generalizing r with
  | nil => exact ⟨_, rfl, kept_refl h⟩
  | cons range plan ih =>
    obtain ⟨hlt, hto⟩ := hplan range List.mem_cons_self
    obtain ⟨⟨r', bDone⟩, hrun, hk⟩ := sheduleRange_kept h hN hlt hto range.bStream range.bResult env.endGameVolume
    rw [sheduleDownload, hrun]
    cases bDone with
    | true => exact ⟨_, rfl, hk⟩
    | false =>
      obtain ⟨result, hrest, hk'⟩ := ih hk.ok fun other hm => hplan other (List.mem_cons_of_mem _ hm)
      exact ⟨result, hrest, hk.trans hk'⟩

/-- `RequestBlocks` keeps the reservations in order. -/
theorem requestBlocks_kept (h : OwnOk N s.r) (hN : N < 2 ^ 64) (hpiece : 0 < env.uPieceSize) (hplan : PlanOk env.plan) :
    ∃ s', requestBlocks env s = some s' ∧ Kept N s.r s'.r := by
  unfold requestBlocks
  by_cases hbusy : env.bBusy = true
  · rw [if_pos hbusy]
    exact ⟨s, rfl, kept_refl h⟩
  · rw [if_neg hbusy]
    obtain ⟨s', hround, hk⟩ := requestRound_kept env h hN hpiece
    rw [hround]
    dsimp only
    by_cases hnone : s'.requests.length = 0
    · obtain ⟨⟨r', bDone⟩, hdownload, hk'⟩ := sheduleDownload_kept env hk.ok hN hplan
      rw [if_pos hnone, hdownload]
      cases bDone with
      | true =>
        obtain ⟨s'', hagain, hk''⟩ := requestRound_kept env (s := { s' with r := r' }) hk'.ok hN hpiece
        exact ⟨s'', hagain, (hk.trans hk').trans hk''⟩
      | false => exact ⟨_, rfl, hk.trans hk'⟩
    · rw [if_neg hnone]
      exact ⟨s', rfl, hk⟩

end Requests

section Files

variable {N : ℕ}

/-- The transfer has the flag set on a byte. -/
def CP2PTransfer.flag (flag x : ℕ) (t : CP2PTransfer) : Bool :=
  match t.parts with
  | some parts => hasFlag (stateAt shareMapOps parts x) flag
  | none => false

/-- The reservations of a transfer, next to a map of the file. -/
def CP2PTransfer.reservation (t : CP2PTransfer) (parts : CRangeMap (BitVec 16))
    (fileParts : CRangeMap SPartRange) : Reservation :=
  ⟨parts, t.uReservedSize, t.bUnderflow, fileParts⟩

/-- The invariant of a file: the reservations of its transfers are in order, and
its map counts them. -/
structure FileOk (N : ℕ) (file : CFile) : Prop where
  /-- The map of the file covers it. -/
  fileParts : Canonical partMapOps N file.fileParts
  /-- The reservations of a transfer with a map are in order. -/
  own : ∀ t ∈ file.transfers, ∀ parts, t.parts = some parts → OwnOk N (t.reservation parts file.fileParts)
  /-- A transfer without a map has nothing reserved. -/
  empty : ∀ t ∈ file.transfers, t.parts = none → t.uReservedSize = 0 ∧ t.bUnderflow = false
  /-- A counter can hold the number of transfers. -/
  few : file.transfers.length < 2 ^ 16
  /-- The first counter counts the transfers that have a byte scheduled. -/
  scheduled : ∀ x < N, (stateAt partMapOps file.fileParts x).uScheduled.toNat =
    file.transfers.countP (CP2PTransfer.flag Part.Scheduled x)
  /-- The second counter counts the transfers that have a byte requested. -/
  requested : ∀ x < N, (stateAt partMapOps file.fileParts x).uRequested.toNat =
    file.transfers.countP (CP2PTransfer.flag Part.Requested x)

variable {fileParts : CRangeMap SPartRange}

/-- The reservations of another transfer stay in order whatever happens to the
map of the file. -/
theorem OwnOk.fileParts_of {r : Reservation} (h : OwnOk N r)
    (hc : Canonical partMapOps N fileParts) : OwnOk N { r with fileParts := fileParts } :=
  ⟨h.parts, hc, h.flags, h.reserved, h.underflow⟩

/-- A counter follows the number of transfers with a flag when one of them
changes. -/
theorem Follows.countP_set {transfers : List CP2PTransfer} {i : ℕ} {t t' : CP2PTransfer}
    (hi : transfers[i]? = some t) (hfew : transfers.length < 2 ^ 16) {flag x : ℕ}
    {c c' : BitVec 16} (h : Follows (t.flag flag x) (t'.flag flag x) c c')
    (hc : c.toNat = transfers.countP (CP2PTransfer.flag flag x)) :
    c'.toNat = (transfers.set i t').countP (CP2PTransfer.flag flag x) := by
  obtain ⟨hlt, rfl⟩ := List.getElem?_eq_some_iff.mp hi
  have hcons : ∀ (other : CP2PTransfer) (others : List CP2PTransfer),
      (other :: others).countP (CP2PTransfer.flag flag x) =
        others.countP (CP2PTransfer.flag flag x) + (other.flag flag x).toNat := by
    intro other others
    rw [List.countP_cons]
    cases CP2PTransfer.flag flag x other <;> rfl
  have hle := List.countP_le_length (p := CP2PTransfer.flag flag x) (l := transfers.eraseIdx i)
  rw [List.length_eraseIdx_of_lt hlt] at hle
  rw [← (List.getElem_cons_eraseIdx_perm hlt).countP_eq, hcons] at hc
  rw [(List.set_perm_cons_eraseIdx hlt t').countP_eq, hcons]
  exact h _ hc (by omega)

variable {file : CFile}

/-- An operation of a transfer that keeps its reservations in order keeps the
file in order. -/
theorem onTransfer_ok (h : FileOk N file) (i : ℕ) (op : Reservation → Option Reservation)
    (hop : ∀ t parts, file.transfers[i]? = some t → t.parts = some parts →
      ∃ r, op (t.reservation parts file.fileParts) = some r ∧ Kept N (t.reservation parts file.fileParts) r) :
    ∃ file', onTransfer i op file = some file' ∧ FileOk N file' := by
  unfold onTransfer
  cases hi : file.transfers[i]? with
  | none => exact ⟨file, rfl, h⟩
  | some t =>
    dsimp only
    cases hp : t.parts with
    | none => exact ⟨file, rfl, h⟩
    | some parts =>
      obtain ⟨r, hrun, hk⟩ := hop t parts hi hp
      have hrun' : op ⟨parts, t.uReservedSize, t.bUnderflow, file.fileParts⟩ = some r := hrun
      dsimp only
      rw [hrun', Option.map_some]
      refine ⟨_, rfl, hk.ok.fileParts, fun other hm own ho => ?_, fun other hm ho => ?_, ?_, ?_, ?_⟩
      · rcases List.mem_or_eq_of_mem_set hm with hother | rfl
        · exact (h.own other hother own ho).fileParts_of hk.ok.fileParts
        · rw [← Option.some.inj ho]
          exact hk.ok
      · rcases List.mem_or_eq_of_mem_set hm with hother | rfl
        · exact h.empty other hother ho
        · cases ho
      · dsimp only
        rw [List.length_set]
        exact h.few
      · intro x hx
        refine Follows.countP_set hi h.few ?_ (h.scheduled x hx)
        have hf := (hk.bytes x hx).scheduled
        unfold CP2PTransfer.flag
        rw [hp]
        exact hf
      · intro x hx
        refine Follows.countP_set hi h.few ?_ (h.requested x hx)
        have hf := (hk.bytes x hx).requested
        unfold CP2PTransfer.flag
        rw [hp]
        exact hf

/-- Two maps of the file with the same counters at every byte. -/
structure SameCounters (N : ℕ) (fileParts fileParts' : CRangeMap SPartRange) : Prop where
  /-- The new map covers the file. -/
  canonical : Canonical partMapOps N fileParts'
  /-- The first counters are the same. -/
  scheduled : ∀ x, (stateAt partMapOps fileParts' x).uScheduled = (stateAt partMapOps fileParts x).uScheduled
  /-- The second counters are the same. -/
  requested : ∀ x, (stateAt partMapOps fileParts' x).uRequested = (stateAt partMapOps fileParts x).uRequested

/-- What is received is cached, and no counter changes. -/
theorem cacheRange_counters (h : Canonical partMapOps N fileParts) (hN : N < 2 ^ 64) {uBegin uEnd : ℕ}
    (hlt : uBegin < uEnd) (hto : uEnd < 2 ^ 64) : ∃ fileParts', cacheRange uBegin uEnd fileParts = some fileParts' ∧
      SameCounters N fileParts fileParts' := by
  have hzero : ∀ c : SPartRange, (SPartRange.makeState c (SPartRange.ofStates (BitVec.ofNat 32 Part.Cached))
        ESet.eAdd).uScheduled = c.uScheduled ∧
      (SPartRange.makeState c (SPartRange.ofStates (BitVec.ofNat 32 Part.Cached))
        ESet.eAdd).uRequested = c.uRequested := fun c =>
    ⟨BitVec.add_zero c.uScheduled, BitVec.add_zero c.uRequested⟩
  have hbody : BodyOk partMapOps N id
      (SPartRange.ofStates (BitVec.ofNat 32 (Part.Available ||| Part.Cached))) (fun _ => true)
      cacheBody uBegin uEnd fun _ fileParts' => SameCounters N fileParts fileParts' := by
    intro fileParts' it hs _ hat
    have hlt' := hat.lt
    unfold cacheBody
    split_ifs
    · exact ⟨fileParts', it.uEnd, rfl, hlt', le_rfl, later_refl _, hs⟩
    · have hstate := stateAt_setRange hs.canonical hN hlt' hat.uEnd_le
        (SPartRange.ofStates (BitVec.ofNat 32 Part.Cached)) ESet.eAdd
      refine ⟨_, it.uEnd, rfl, hlt', le_rfl, later_setRange _ _ _ _ _,
        setRange_canonical hs.canonical hN hlt' hat.uEnd_le _ _, fun x => ?_, fun x => ?_⟩
      · rw [hstate, ← hs.scheduled]
        split_ifs
        · exact (hzero _).1
        · rfl
      · rw [hstate, ← hs.requested]
        split_ifs
        · exact (hzero _).2
        · rfl
  obtain ⟨fileParts', cur, hrun, hs, -⟩ := forRanges_spec hN hlt hto
    (fun cur s hs => hs.canonical) hbody ⟨h, fun _ => rfl, fun _ => rfl⟩
  exact ⟨fileParts', hrun, hs⟩

/-- Another map with the same counters keeps the file in order. -/
theorem FileOk.fileParts_of (h : FileOk N file) (hs : SameCounters N file.fileParts fileParts) :
    FileOk N { file with fileParts := fileParts } where
  fileParts := hs.canonical
  own := fun t hm parts hp => (h.own t hm parts hp).fileParts_of hs.canonical
  empty := h.empty
  few := h.few
  scheduled := fun x hx => by
    rw [hs.scheduled]
    exact h.scheduled x hx
  requested := fun x hx => by
    rw [hs.requested]
    exact h.requested x hx

/-- Cancelling requests keeps the file in order. -/
theorem cancelRequests_ok (hN : N < 2 ^ 64) {uBegin uEnd : ℕ} (hlt : uBegin < uEnd)
    (hto : uEnd < 2 ^ 64) (active : ℕ → Bool) (is : List ℕ) (h : FileOk N file) :
    ∃ file', cancelRequests active uBegin uEnd is file = some file' ∧ FileOk N file' := by
  induction is generalizing file with
  | nil => exact ⟨file, rfl, h⟩
  | cons i is ih =>
    rw [cancelRequests]
    by_cases ha : active i = true
    · obtain ⟨file', hrun, hok⟩ := onTransfer_ok h i _ fun t parts hi hp =>
        cancelRequest_kept (h.own t (List.mem_of_getElem? hi) parts hp) hN hlt hto
      rw [if_pos ha, hrun]
      exact ih hok
    · rw [if_neg ha]
      exact ih h

/-- `RangeReceived` keeps the file in order. -/
theorem rangeReceived_ok (hN : N < 2 ^ 64) (h : FileOk N file) (i : ℕ)
    {uBegin uEnd : ℕ} (hlt : uBegin < uEnd) (hto : uEnd < 2 ^ 64) (bComplete : Bool) (active : ℕ → Bool) :
    ∃ file', rangeReceived i uBegin uEnd bComplete active file = some file' ∧ FileOk N file' := by
  unfold rangeReceived
  by_cases hcomplete : bComplete = true
  · rw [if_pos hcomplete]
    exact ⟨file, rfl, h⟩
  · obtain ⟨fileParts, hcache, hs⟩ := cacheRange_counters h.fileParts hN hlt hto
    have h' := h.fileParts_of hs
    obtain ⟨file', hrelease, hok⟩ := onTransfer_ok h' i (releaseRange uBegin uEnd true) fun t parts hi hp => by
        obtain ⟨r, cur, hrun, hw⟩ := releaseRange_walked (h'.own t (List.mem_of_getElem? hi) parts hp) hN hlt hto true
        exact ⟨r, hrun, hw.kept⟩
    rw [if_neg hcomplete, hcache]
    dsimp only
    rw [hrelease]
    dsimp only
    split_ifs
    · exact cancelRequests_ok hN hlt hto active _ hok
    · exact ⟨file', rfl, hok⟩

/-- What an operation is called with: windows that are not empty, a range that is
not reserved yet to reserve, and a range with just what is held on it to take
back. -/
def Event.Received (N : ℕ) (file : CFile) : Event → Prop
  | Event.shedule _ uBegin uEnd _ _ _ => uBegin < uEnd ∧ uEnd < 2 ^ 64
  | Event.reserve i uBegin uEnd => uBegin < uEnd ∧ uEnd ≤ N ∧
    ∀ t, file.transfers[i]? = some t → ∀ x, uBegin ≤ x → x < uEnd → t.flag Part.Scheduled x = false
  | Event.release _ uBegin uEnd _ => uBegin < uEnd ∧ uEnd < 2 ^ 64
  | Event.unReserve i uBegin uEnd uState => uBegin < uEnd ∧ uEnd ≤ N ∧
    ∀ t parts, file.transfers[i]? = some t → t.parts = some parts → ∀ x, uBegin ≤ x → x < uEnd →
      uState = heldFlags (stateAt shareMapOps parts x) ∧ t.flag Part.Scheduled x = true
  | Event.received _ uBegin uEnd _ _ => uBegin < uEnd ∧ uEnd < 2 ^ 64
  | Event.cancel _ uBegin uEnd => uBegin < uEnd ∧ uEnd < 2 ^ 64
  | Event.request _ env _ _ => 0 < env.uPieceSize ∧ PlanOk env.plan

/-- An operation keeps the file in order. -/
theorem step_ok (hN : N < 2 ^ 64) (h : FileOk N file) {event : Event}
    (hr : event.Received N file) : ∃ file', step file event = some file' ∧ FileOk N file' := by
  have hown := fun t parts i (hi : file.transfers[i]? = some t) (hp : t.parts = some parts) =>
    h.own t (List.mem_of_getElem? hi) parts hp
  cases event with
  | shedule i uBegin uEnd bStream bResult endGameVolume =>
    refine onTransfer_ok h i (fun r =>
      (sheduleRange uBegin uEnd bStream bResult endGameVolume r).map Prod.fst)
      fun t parts hi hp => ?_
    obtain ⟨result, hrun, hk⟩ := sheduleRange_kept (hown t parts i hi hp) hN hr.1 hr.2 bStream bResult endGameVolume
    rw [hrun, Option.map_some]
    exact ⟨_, rfl, hk⟩
  | reserve i uBegin uEnd =>
    obtain ⟨hlt, hend, hfree⟩ := hr
    refine onTransfer_ok h i (fun r =>
      some (reserveRange uBegin uEnd (BitVec.ofNat 32 Part.Scheduled) r))
      fun t parts hi hp => ⟨_, rfl, ?_⟩
    refine kept_reserve (hown t parts i hi hp) hN hlt hend fun x h1 h2 => ?_
    have hflag := hfree t hi x h1 h2
    unfold CP2PTransfer.flag at hflag
    rw [hp] at hflag
    exact hflag
  | release i uBegin uEnd bAll =>
    refine onTransfer_ok h i _ fun t parts hi hp => ?_
    obtain ⟨r, cur, hrun, hw⟩ := releaseRange_walked (hown t parts i hi hp) hN hr.1 hr.2 bAll
    exact ⟨r, hrun, hw.kept⟩
  | unReserve i uBegin uEnd uState =>
    obtain ⟨hlt, hend, hheld⟩ := hr
    refine onTransfer_ok h i (fun r =>
      some (unReserveRange uBegin uEnd (uState.setWidth 32) r))
      fun t parts hi hp => ⟨_, rfl, ?_⟩
    refine kept_unReserve (hown t parts i hi hp) hN hlt hend
      (fun x h1 h2 => (hheld t parts hi hp x h1 h2).1) fun x h1 h2 => ?_
    have hflag := (hheld t parts hi hp x h1 h2).2
    unfold CP2PTransfer.flag at hflag
    rw [hp] at hflag
    exact hflag
  | received i uBegin uEnd bComplete active =>
    exact rangeReceived_ok hN h i hr.1 hr.2 bComplete active
  | cancel i uBegin uEnd =>
    exact onTransfer_ok h i _ fun t parts hi hp =>
      cancelRequest_kept (hown t parts i hi hp) hN hr.1 hr.2
  | request i env requests uRequestVolume =>
    refine onTransfer_ok h i (fun r =>
      (requestBlocks env ⟨r, requests, uRequestVolume, 0⟩).map RequestState.r)
      fun t parts hi hp => ?_
    obtain ⟨s, hrun, hk⟩ := requestBlocks_kept env
      (s := ⟨t.reservation parts file.fileParts, requests, uRequestVolume, 0⟩)
      (hown t parts i hi hp) hN hr.1 hr.2
    rw [hrun, Option.map_some]
    exact ⟨_, rfl, hk⟩

/-- Every operation of a run is called as it has to be. -/
def StepsOk (N : ℕ) : CFile → List Event → Prop
  | _, [] => True
  | file, event :: events => event.Received N file ∧ ∀ file', step file event = some file' → StepsOk N file' events

theorem run_ok (hN : N < 2 ^ 64) (h : FileOk N file) {events : List Event}
    (hok : StepsOk N file events) : ∃ file', run file events = some file' ∧ FileOk N file' := by
  induction events generalizing file with
  | nil => exact ⟨file, rfl, h⟩
  | cons event events ih =>
    obtain ⟨hr, hrest⟩ := hok
    obtain ⟨file', hstep, h'⟩ := step_ok hN h hr
    rw [run, hstep, Option.bind_some]
    exact ih h' (hrest file' hstep)

/-- A file whose transfers have nothing reserved, whatever they have available. -/
structure Fresh (N : ℕ) (file : CFile) : Prop where
  /-- The map of the file covers it. -/
  fileParts : Canonical partMapOps N file.fileParts
  /-- Its counters are zero. -/
  counters : ∀ x, (stateAt partMapOps file.fileParts x).uScheduled = 0 ∧
    (stateAt partMapOps file.fileParts x).uRequested = 0
  /-- The maps of the transfers cover it. -/
  parts : ∀ t ∈ file.transfers, ∀ parts, t.parts = some parts → Canonical shareMapOps N parts
  /-- Nothing is scheduled, requested or marked. -/
  flags : ∀ t ∈ file.transfers, ∀ x, t.flag Part.Scheduled x = false ∧
    t.flag Part.Requested x = false ∧ t.flag Part.Marked x = false
  /-- The transfers have reserved nothing. -/
  reserved : ∀ t ∈ file.transfers, t.uReservedSize = 0 ∧ t.bUnderflow = false

/-- A fresh file is in order if it has not too many transfers. -/
theorem Fresh.ok (h : Fresh N file) (hfew : file.transfers.length < 2 ^ 16) : FileOk N file where
  fileParts := h.fileParts
  own := fun t hm parts hp => by
    have hflags := fun x => h.flags t hm x
    unfold CP2PTransfer.flag at hflags
    rw [hp] at hflags
    obtain ⟨hres, hunder⟩ := h.reserved t hm
    refine ⟨h.parts t hm parts hp, h.fileParts, fun x => ⟨fun hr => ?_, (hflags x).2.2⟩, ?_, hunder⟩
    · have hfalse := (hflags x).2.1
      exact absurd hr (ne_true_of_eq_false hfalse)
    · refine hres.trans (Finset.sum_eq_zero fun x _ => ?_).symm
      exact congrArg Bool.toNat (hflags x).1
  empty := fun t hm _ => h.reserved t hm
  few := hfew
  scheduled := fun x _ => by
    rw [(h.counters x).1]
    refine (List.countP_eq_zero.mpr fun t hm => ?_).symm
    exact ne_true_of_eq_false (h.flags t hm x).1
  requested := fun x _ => by
    rw [(h.counters x).2]
    refine (List.countP_eq_zero.mpr fun t hm => ?_).symm
    exact ne_true_of_eq_false (h.flags t hm x).2.1

/-- Bytes that a transfer has scheduled. -/
def CP2PTransfer.scheduledSize (N : ℕ) (t : CP2PTransfer) : ℕ :=
  ∑ x ∈ Finset.range N, (t.flag Part.Scheduled x).toNat

/-- The three views agree: each transfer's number of reserved bytes is the number
of bytes scheduled in its map and never went below zero, what it has requested
it has scheduled, and the counters of the file's map count the transfers. -/
structure ViewsAgree (N : ℕ) (file : CFile) : Prop where
  /-- The number of reserved bytes. -/
  reserved : ∀ t ∈ file.transfers, t.uReservedSize = t.scheduledSize N
  /-- It never went below zero. -/
  underflow : ∀ t ∈ file.transfers, t.bUnderflow = false
  /-- What is requested is scheduled. -/
  requests : ∀ t ∈ file.transfers, ∀ x, t.flag Part.Requested x = true → t.flag Part.Scheduled x = true
  /-- The first counter. -/
  scheduled : ∀ x < N, (stateAt partMapOps file.fileParts x).uScheduled.toNat =
    file.transfers.countP fun t => t.flag Part.Scheduled x
  /-- The second counter. -/
  requested : ∀ x < N, (stateAt partMapOps file.fileParts x).uRequested.toNat =
    file.transfers.countP fun t => t.flag Part.Requested x

theorem FileOk.viewsAgree (h : FileOk N file) : ViewsAgree N file where
  reserved := fun t hm => by
    unfold CP2PTransfer.scheduledSize CP2PTransfer.flag
    cases hp : t.parts with
    | none =>
      rw [(h.empty t hm hp).1]
      exact Finset.sum_const_zero.symm
    | some parts => exact (h.own t hm parts hp).reserved
  underflow := fun t hm => by
    cases hp : t.parts with
    | none => exact (h.empty t hm hp).2
    | some parts => exact (h.own t hm parts hp).underflow
  requests := fun t hm x hr => by
    unfold CP2PTransfer.flag at hr ⊢
    cases hp : t.parts with
    | none =>
      rw [hp] at hr
      cases hr
    | some parts =>
      rw [hp] at hr
      exact ((h.own t hm parts hp).flags x).1 hr
  scheduled := h.scheduled
  requested := h.requested

end Files

section OneByte

/-- A transfer of a file of one byte that has it. -/
def byteTransfer : CP2PTransfer :=
  ⟨some ((CRangeMap.create shareMapOps 1).setRange shareMapOps 0 1
    (BitVec.ofNat 16 (Part.Available ||| Part.Verified)) ESet.eAdd), 0, false⟩

/-- A file of one byte with a number of transfers that have it. -/
def byteFile (n : ℕ) : CFile :=
  ⟨List.replicate n byteTransfer, CRangeMap.create partMapOps 1⟩

/-- The byte is reserved for one transfer after the other. -/
def reserveEach (is : List ℕ) : List Event := is.map fun i => Event.reserve i 0 1

/-- The map of the file and those of all transfers cover the byte. -/
structure MapsOk (file : CFile) : Prop where
  /-- The map of the file. -/
  fileParts : Canonical partMapOps 1 file.fileParts
  /-- The maps of the transfers. -/
  parts : ∀ t ∈ file.transfers, ∃ parts, t.parts = some parts ∧ Canonical shareMapOps 1 parts

theorem canonical_byteTransfer : Canonical shareMapOps 1 ((CRangeMap.create shareMapOps 1).setRange shareMapOps 0 1
      (BitVec.ofNat 16 (Part.Available ||| Part.Verified)) ESet.eAdd) :=
  setRange_canonical (canonical_create _ (by decide)) (by decide) (by decide) le_rfl _ _

theorem mapsOk_byteFile (n : ℕ) : MapsOk (byteFile n) where
  fileParts := canonical_create _ (by decide)
  parts := fun t hm => ⟨_, by rw [(List.mem_replicate.mp hm).2]; rfl, canonical_byteTransfer⟩

theorem fresh_byteFile (n : ℕ) : Fresh 1 (byteFile n) where
  fileParts := canonical_create _ (by decide)
  counters := fun x => by
    unfold byteFile
    rw [stateAt_create]
    exact ⟨rfl, rfl⟩
  parts := fun t hm parts hp => by
    rw [(List.mem_replicate.mp hm).2] at hp
    rw [← Option.some.inj hp]
    exact canonical_byteTransfer
  flags := fun t hm x => by
    rw [(List.mem_replicate.mp hm).2]
    unfold CP2PTransfer.flag byteTransfer
    dsimp only
    rw [stateAt_setRange (canonical_create _ (by decide)) (by decide) (by decide) le_rfl, stateAt_create]
    split_ifs
    · decide
    · decide
  reserved := fun t hm => by
    rw [(List.mem_replicate.mp hm).2]
    exact ⟨rfl, rfl⟩

/-- Reserving the byte counts one more and schedules it for the transfer, whatever
was counted before. -/
theorem step_reserve {file : CFile} (h : MapsOk file) {i : ℕ} (hi : i < file.transfers.length) :
    ∃ file' t', step file (Event.reserve i 0 1) = some file' ∧ MapsOk file' ∧
      file'.transfers = file.transfers.set i t' ∧ t'.flag Part.Scheduled 0 = true ∧
      (stateAt partMapOps file'.fileParts 0).uScheduled = (stateAt partMapOps file.fileParts 0).uScheduled + 1 := by
  have hget : file.transfers[i]? = some file.transfers[i] := List.getElem?_eq_getElem hi
  obtain ⟨parts, hp, hparts⟩ := h.parts _ (List.getElem_mem hi)
  have hstep : step file (Event.reserve i 0 1) = some ⟨file.transfers.set i
      ⟨some (parts.setRange shareMapOps 0 1 (BitVec.ofNat 16 Part.Scheduled) ESet.eAdd),
        (file.transfers[i].uReservedSize + 1) % 2 ^ 64, file.transfers[i].bUnderflow⟩,
      file.fileParts.setRange partMapOps 0 1 (SPartRange.ofStates (BitVec.ofNat 32 Part.Scheduled)) ESet.eAdd⟩ := by
    rw [step, onTransfer, hget]
    dsimp only
    rw [hp]
    rfl
  refine ⟨_, _, hstep, ⟨setRange_canonical h.fileParts (by decide) (by decide) le_rfl _ _, fun t hm => ?_⟩, rfl, ?_, ?_⟩
  · rcases List.mem_or_eq_of_mem_set hm with hother | rfl
    · exact h.parts t hother
    · exact ⟨_, rfl, setRange_canonical hparts (by decide) (by decide) le_rfl _ _⟩
  · unfold CP2PTransfer.flag
    dsimp only
    rw [stateAt_setRange hparts (by decide) (by decide) le_rfl, if_pos (by decide), hasFlag_scheduled]
    exact (BitVec.getLsbD_or).trans (Bool.or_true _)
  · dsimp only
    rw [stateAt_setRange h.fileParts (by decide) (by decide) le_rfl, if_pos (by decide)]
    rfl

/-- Reserving the byte for several transfers counts them all. -/
theorem run_reserveEach {file : CFile} (h : MapsOk file) {is : List ℕ} (hnodup : is.Nodup)
    (hlt : ∀ i ∈ is, i < file.transfers.length)
    (hfree : ∀ i ∈ is, ∀ t, file.transfers[i]? = some t → t.flag Part.Scheduled 0 = false) :
    StepsOk 1 file (reserveEach is) ∧ ∃ file', run file (reserveEach is) = some file' ∧
      (stateAt partMapOps file'.fileParts 0).uScheduled =
        (stateAt partMapOps file.fileParts 0).uScheduled + BitVec.ofNat 16 is.length ∧
      (is ≠ [] ∨ (∃ t ∈ file.transfers, t.flag Part.Scheduled 0 = true) →
        ∃ t ∈ file'.transfers, t.flag Part.Scheduled 0 = true) := by
  induction is generalizing file with
  | nil =>
    refine ⟨trivial, file, rfl, (BitVec.add_zero _).symm, fun hor => ?_⟩
    exact hor.resolve_left fun hne => hne rfl
  | cons i is ih =>
    obtain ⟨file', t', hstep, h', hset, hflag, hcount⟩ := step_reserve h (hlt i List.mem_cons_self)
    obtain ⟨hi, hrest⟩ := List.nodup_cons.mp hnodup
    have hlength : file'.transfers.length = file.transfers.length := by
      rw [hset, List.length_set]
    have hmem : t' ∈ file'.transfers := by
      rw [hset]
      exact List.mem_set (hlt i List.mem_cons_self) t'
    obtain ⟨hok, file'', hrun, hcount', hflag'⟩ := ih h' hrest (fun j hj => by
        rw [hlength]
        exact hlt j (List.mem_cons_of_mem _ hj)) fun j hj t ht => by
          have hne : i ≠ j := fun he => hi (by rwa [he])
          rw [hset, List.getElem?_set_ne hne] at ht
          exact hfree j (List.mem_cons_of_mem _ hj) t ht
    refine ⟨⟨⟨by decide, le_rfl, fun t ht x _ hx => ?_⟩, fun other ho => ?_⟩, file'', ?_, ?_,
      fun _ => hflag' (Or.inr ⟨t', hmem, hflag⟩)⟩
    · rw [Nat.lt_one_iff.mp hx]
      exact hfree i List.mem_cons_self t ht
    · rw [← Option.some.inj (hstep.symm.trans ho)]
      exact hok
    · change run file (Event.reserve i 0 1 :: reserveEach is) = some file''
      rw [run, hstep, Option.bind_some]
      exact hrun
    · rw [hcount', hcount, List.length_cons, BitVec.ofNat_add, BitVec.add_assoc, BitVec.add_comm 1]
      rfl

/-- When the byte is scheduled for all transfers, the counter is wrong if 16 bits of
their number are zero. -/
theorem run_reserveEach_range {n : ℕ} (hpos : 0 < n) (hzero : n % 2 ^ 16 = 0) :
    StepsOk 1 (byteFile n) (reserveEach (List.range n)) ∧
      ∃ file', run (byteFile n) (reserveEach (List.range n)) = some file' ∧ ¬ViewsAgree 1 file' := by
  have hfresh := fresh_byteFile n
  obtain ⟨hok, file', hrun, hcount, hflag⟩ := run_reserveEach (mapsOk_byteFile n) List.nodup_range (fun i hi => by
      rw [byteFile, List.length_replicate]
      exact List.mem_range.mp hi) fun i _ t ht => (hfresh.flags t (List.mem_of_getElem? ht) 0).1
  have hne : List.range n ≠ [] := List.ne_nil_of_length_pos (by rwa [List.length_range])
  obtain ⟨t, hm, ht⟩ := hflag (Or.inl hne)
  refine ⟨hok, file', hrun, fun hviews => ?_⟩
  have hnone := hviews.scheduled 0 Nat.one_pos
  rw [hcount, (hfresh.counters 0).1, List.length_range, zero_add, BitVec.toNat_ofNat, hzero] at hnone
  exact absurd ht (List.countP_eq_zero.mp hnone.symm t hm)

end OneByte

/-- From a fresh file with fewer than 65536 transfers the three views agree after
every run of the operations. -/
theorem run_keeps_views {N : ℕ} (hN : N < 2 ^ 64) {file : CFile} (hfresh : Fresh N file)
    (hfew : file.transfers.length < 2 ^ 16) {events : List Event}
    (hok : StepsOk N file events) :
    ∃ file', run file events = some file' ∧ ViewsAgree N file' := by
  obtain ⟨file', hrun, h⟩ := run_ok hN (hfresh.ok hfew) hok
  exact ⟨file', hrun, h.viewsAgree⟩

/-- Two transfers schedule the same byte, and one of them receives it. -/
theorem run_keeps_views_byte : ∃ file', run (byteFile 2) [Event.reserve 0 0 1,
    Event.shedule 1 0 1 true false 0, Event.received 0 0 1 false fun _ => true] = some file' ∧
      ViewsAgree 1 file' := by
  refine run_keeps_views (by decide) (fresh_byteFile 2) (by decide) ⟨⟨by decide, le_rfl,
    fun t ht x _ _ => ((fresh_byteFile 2).flags t (List.mem_of_getElem? ht) x).1⟩,
    fun file _ => ⟨⟨by decide, by decide⟩, fun file _ => ⟨⟨by decide, by decide⟩, fun file _ => trivial⟩⟩⟩

/-- With 65536 transfers that have the same byte scheduled the counter is zero.
Reserving it twice for one transfer counts two bytes, and taking back what is not
reserved goes below zero. -/
theorem run_breaks_views : (Fresh 1 (byteFile (2 ^ 16)) ∧
      StepsOk 1 (byteFile (2 ^ 16)) (reserveEach (List.range (2 ^ 16))) ∧
      ∃ file', run (byteFile (2 ^ 16)) (reserveEach (List.range (2 ^ 16))) = some file' ∧ ¬ViewsAgree 1 file') ∧
      Fresh 1 (byteFile 1) ∧
      (∃ file', run (byteFile 1) [Event.reserve 0 0 1, Event.reserve 0 0 1] = some file' ∧ ¬ViewsAgree 1 file') ∧
      ∃ file', run (byteFile 1) [Event.unReserve 0 0 1 (BitVec.ofNat 16 Part.Scheduled)] =
        some file' ∧ ¬ViewsAgree 1 file' := by
  refine ⟨⟨fresh_byteFile _, run_reserveEach_range (Nat.two_pow_pos 16) (Nat.mod_self _)⟩,
    fresh_byteFile 1, ⟨_, rfl, fun hviews => ?_⟩, _, rfl, fun hviews => ?_⟩
  · exact absurd (hviews.reserved _ List.mem_cons_self) (by decide)
  · exact absurd (hviews.underflow _ List.mem_cons_self) (by decide)

end NeoLoader.TransferReservation
