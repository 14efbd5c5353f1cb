import NeoLoader.ShareMapBits

/-!
# Counting the sources of each byte

A file counts for each byte how many of its transfers have it available. The
count is never recomputed: a transfer that is added or removed adds or takes
away what its own map has, and an announcement passes on the difference it
made to that map. The difference of a bit array goes wrong where its first run
starts too long, and the one of a single piece where part of the piece was
available before. The cached announcements of a torrent without metadata and
the hoster maps are left out.
-/

namespace NeoLoader.AvailabilityCount

open Tiling RangeMap PartStates ShareMapBits

/-- A transfer, as far as its availability goes. -/
structure CTransfer where
  /-- `m_Parts`, absent before the first announcement. -/
  parts : Option (CRangeMap (BitVec 16))
  /-- `m_AvailableBytes`. -/
  uAvailableBytes : ℕ
  deriving DecidableEq, Repr

/-- `CTorrentInfo`, as far as the announcements of a peer need it. -/
structure CTorrentInfo where
  /-- `m_PieceLength`, zero while there is no metadata. -/
  uPieceLength : ℕ
  /-- `GetTotalLength`. -/
  uTotalLength : ℕ

/-- `ED2K_CRUMBSIZE`. -/
def ed2kCrumbSize : ℕ := 486400

/-- The flags an announcement sets. -/
def announced : BitVec 16 := BitVec.ofNat 16 (Part.Available ||| Part.Verified)

/-- One round of `UpdateAvail`. The old state counts only if the transfer had a
map before. -/
def updateStep (b1st : Bool) (avail : CRangeMap (BitVec 32)) (diff : SAvailDiff) : CRangeMap (BitVec 32) :=
  let avail := if diff.uNew &&& BitVec.ofNat 32 Part.Available ≠ 0 then
    avail.setRange availMapOps diff.uBegin diff.uEnd 1 ESet.eAdd else avail
  if b1st = false ∧ diff.uOld &&& BitVec.ofNat 32 Part.Available ≠ 0 then
    avail.setRange availMapOps diff.uBegin diff.uEnd 1 ESet.eClr else avail

/-- `CFileStats::UpdateAvail`. -/
def updateAvail (avail : CRangeMap (BitVec 32)) (availDiff : List SAvailDiff) (b1st : Bool) :
    CRangeMap (BitVec 32) := availDiff.foldl (updateStep b1st) avail

/-- The loop over the ranges of a transfer's map: the available ones are counted
in the given mode. -/
def countParts (eMode : ESet) (avail : CRangeMap (BitVec 32)) (t : CTransfer) : CRangeMap (BitVec 32) :=
  match t.parts with
  | none => avail
  | some map => (rangesOf shareMapOps map 0 minusOne 0).foldl (fun avail range =>
      if isAvailable range.value then
        avail.setRange availMapOps range.first range.last 1 eMode else avail) avail

/-- `CFileStats::AddTransfer`. -/
def addTransfer (avail : CRangeMap (BitVec 32)) (t : CTransfer) : CRangeMap (BitVec 32) :=
  countParts ESet.eAdd avail t

/-- `CFileStats::RemoveTransfer`. -/
def removeTransfer (avail : CRangeMap (BitVec 32)) (t : CTransfer) : CRangeMap (BitVec 32) :=
  countParts ESet.eClr avail t

section Announcements

variable (fileSize : ℕ)

/-- The map of a transfer, allocated on the first announcement. -/
def CTransfer.map (t : CTransfer) : CRangeMap (BitVec 16) :=
  t.parts.getD (CRangeMap.create shareMapOps fileSize)

/-- `CP2PTransfer::PartsAvailable`. -/
def partsAvailable (bits : List Bool) (uPartSize uBlockSize : ℕ) (t : CTransfer)
    (avail : CRangeMap (BitVec 32)) : CTransfer × CRangeMap (BitVec 32) :=
  let b1st := t.parts.isNone
  let run := fromBitArray (t.map fileSize) bits uPartSize uBlockSize announced []
  (⟨some run.map, run.uAvailSize⟩, updateAvail avail run.availDiff b1st)

/-- The common body of `OnPieceAvailable` and `OnCrumbComplete`: announce one
unit of the file, if not all of it is available yet. -/
def unitAvailable (uUnitSize index : ℕ) (t : CTransfer) (avail : CRangeMap (BitVec 32)) :
    CTransfer × CRangeMap (BitVec 32) :=
  let b1st := t.parts.isNone
  let map := t.map fileSize
  let uBegin := index * uUnitSize % 2 ^ 64
  if uBegin ≥ fileSize then (⟨some map, t.uAvailableBytes⟩, avail)
  else
    let uEnd := (uBegin + uUnitSize) % 2 ^ 64
    let uEnd := if uEnd > fileSize then fileSize else uEnd
    if isAvailable (map.getRange shareMapOps uBegin uEnd EMerge.eInter 0) = false then
      (⟨some (map.setRange shareMapOps uBegin uEnd announced ESet.eAdd),
          (t.uAvailableBytes + (uEnd - uBegin)) % 2 ^ 64⟩,
        updateAvail avail [⟨uBegin, uEnd, BitVec.ofNat 32 Part.Available, 0⟩] b1st)
    else (⟨some map, t.uAvailableBytes⟩, avail)

/-- `CTorrentPeer::OnPiecesAvailable`. -/
def onPiecesAvailable (info : CTorrentInfo) (fullPieces : List Bool) (t : CTransfer)
    (avail : CRangeMap (BitVec 32)) : CTransfer × CRangeMap (BitVec 32) :=
  if info.uPieceLength = 0 then (t, avail)
  else partsAvailable fileSize fullPieces info.uPieceLength 0 t avail

/-- `CTorrentPeer::OnPieceAvailable`. -/
def onPieceAvailable (info : CTorrentInfo) (index : ℕ) (t : CTransfer)
    (avail : CRangeMap (BitVec 32)) : CTransfer × CRangeMap (BitVec 32) :=
  if info.uPieceLength = 0 then (t, avail)
  else unitAvailable fileSize info.uPieceLength index t avail

/-- `CMuleSource::OnCrumbComplete`. -/
def onCrumbComplete (index : ℕ) (t : CTransfer) (avail : CRangeMap (BitVec 32)) : CTransfer × CRangeMap (BitVec 32) :=
  unitAvailable fileSize ed2kCrumbSize index t avail

/-- `CTorrentPeer::OnHaveAll`. -/
def onHaveAll (info : CTorrentInfo) (t : CTransfer) (avail : CRangeMap (BitVec 32)) :
    CTransfer × CRangeMap (BitVec 32) :=
  if info.uPieceLength = 0 then (t, avail)
  else
    let b1st := t.parts.isNone
    let map := t.map fileSize
    let availDiff := availUpdate [] 0 minusOne (BitVec.ofNat 32 Part.Available) map
      (BitVec.ofNat 32 Part.Available)
    (⟨some (map.setRange shareMapOps 0 minusOne announced ESet.eAdd), info.uTotalLength⟩,
      updateAvail avail availDiff b1st)

/-- `CTorrentPeer::OnHaveNone`. -/
def onHaveNone (info : CTorrentInfo) (t : CTransfer) (avail : CRangeMap (BitVec 32)) :
    CTransfer × CRangeMap (BitVec 32) :=
  if info.uPieceLength = 0 then (t, avail)
  else
    let b1st := t.parts.isNone
    let map := t.map fileSize
    let availDiff := if b1st then [⟨0, fileSize, 0, 0⟩]
      else availUpdate [] 0 minusOne 0 map (BitVec.ofNat 32 Part.Available)
    (⟨some (map.setRange shareMapOps 0 minusOne announced ESet.eClr), 0⟩, updateAvail avail availDiff b1st)

end Announcements

/-- What a transfer announces. -/
inductive Announcement where
  /-- A bit array over parts or blocks, as a mule source or a neo entity. -/
  | parts (bits : List Bool) (uPartSize uBlockSize : ℕ)
  /-- The bit array of a torrent peer. -/
  | pieces (info : CTorrentInfo) (fullPieces : List Bool)
  /-- A single piece of a torrent. -/
  | piece (info : CTorrentInfo) (index : ℕ)
  /-- A single crumb. -/
  | crumb (index : ℕ)
  /-- All pieces. -/
  | haveAll (info : CTorrentInfo)
  /-- No piece. -/
  | haveNone (info : CTorrentInfo)

/-- The handler of an announcement. -/
def announce (fileSize : ℕ) : Announcement → CTransfer → CRangeMap (BitVec 32) → CTransfer × CRangeMap (BitVec 32)
  | Announcement.parts bits uPartSize uBlockSize =>
    partsAvailable fileSize bits uPartSize uBlockSize
  | Announcement.pieces info fullPieces => onPiecesAvailable fileSize info fullPieces
  | Announcement.piece info index => onPieceAvailable fileSize info index
  | Announcement.crumb index => onCrumbComplete fileSize index
  | Announcement.haveAll info => onHaveAll fileSize info
  | Announcement.haveNone info => onHaveNone fileSize info

/-- The file: its attached transfers and the count. -/
structure CFile where
  transfers : List CTransfer
  /-- `m_Availability` of the statistics. -/
  availability : CRangeMap (BitVec 32)

/-- What happens to the transfers of a file. -/
inductive Event where
  /-- Attach a transfer. -/
  | add (t : CTransfer)
  /-- The transfer at a position announces something. -/
  | announce (i : ℕ) (a : Announcement)
  /-- Detach the transfer at a position. -/
  | remove (i : ℕ)

/-- The next state of the file. -/
def step (fileSize : ℕ) (file : CFile) : Event → CFile
  | Event.add t => ⟨t :: file.transfers, addTransfer file.availability t⟩
  | Event.announce i a =>
    match file.transfers[i]? with
    | none => file
    | some t =>
      let result := announce fileSize a t file.availability
      ⟨file.transfers.set i result.1, result.2⟩
  | Event.remove i =>
    match file.transfers[i]? with
    | none => file
    | some t => ⟨file.transfers.eraseIdx i, removeTransfer file.availability t⟩

/-- A file whose count was just set up. -/
def setup (fileSize : ℕ) : CFile := ⟨[], CRangeMap.create availMapOps fileSize⟩

/-- A run of events. -/
def run (fileSize : ℕ) : CFile → List Event → CFile := List.foldl (step fileSize)

section Count

variable {size : ℕ} {avail : CRangeMap (BitVec 32)}

/-- What one entry does to the count of a byte in it. -/
def countChange (b1st : Bool) (c : BitVec 32) (change : BitVec 32 × BitVec 32) : BitVec 32 :=
  let c := if change.1 &&& BitVec.ofNat 32 Part.Available ≠ 0 then c + 1 else c
  if b1st = false ∧ change.2 &&& BitVec.ofNat 32 Part.Available ≠ 0 then numClr c 1 else c

section

variable (h : Canonical availMapOps size avail) (hsize : size < 2 ^ 64)

include h hsize

/-- A conditional update of a range, byte by byte. -/
theorem setRange_if {uBegin uEnd : ℕ} (hlt : uBegin < uEnd) (hend : uEnd ≤ size) (eMode : ESet) (p : Prop)
    [Decidable p] : Canonical availMapOps size (if p then avail.setRange availMapOps uBegin uEnd 1 eMode else avail) ∧
      ∀ x, stateAt availMapOps (if p then avail.setRange availMapOps uBegin uEnd 1 eMode else avail) x =
        if (uBegin ≤ x ∧ x < uEnd) ∧ p then availMakeState (stateAt availMapOps avail x) 1 eMode
        else stateAt availMapOps avail x := by
  by_cases hp : p
  · simp only [hp, if_true, and_true]
    exact ⟨setRange_canonical h hsize hlt hend _ _, stateAt_setRange h hsize hlt hend _ _⟩
  · simp only [hp, and_false, if_false]
    exact ⟨h, fun _ => trivial⟩

/-- An entry changes the count of exactly the bytes in it. -/
theorem updateStep_spec {diff : SAvailDiff} (hlt : diff.uBegin < diff.uEnd) (hend : diff.uEnd ≤ size) (b1st : Bool) :
    Canonical availMapOps size (updateStep b1st avail diff) ∧
      ∀ x, stateAt availMapOps (updateStep b1st avail diff) x = if diff.Covers x then
        countChange b1st (stateAt availMapOps avail x) (diff.uNew, diff.uOld)
      else stateAt availMapOps avail x := by
  obtain ⟨hc, hs⟩ := setRange_if h hsize hlt hend ESet.eAdd (diff.uNew &&& BitVec.ofNat 32 Part.Available ≠ 0)
  obtain ⟨hc', hs'⟩ := setRange_if hc hsize hlt hend ESet.eClr
    (b1st = false ∧ diff.uOld &&& BitVec.ofNat 32 Part.Available ≠ 0)
  refine ⟨hc', fun x => (hs' x).trans ?_⟩
  rw [hs x]
  by_cases hx : diff.uBegin ≤ x ∧ x < diff.uEnd
  · have hcov : diff.Covers x := hx
    rw [if_pos hcov]
    simp only [hx, true_and, and_self]
    rfl
  · have hcov : ¬diff.Covers x := hx
    rw [if_neg hcov, if_neg fun h => hx h.1, if_neg fun h => hx h.1]

/-- `UpdateAvail` applies to each byte the entries over it. -/
theorem updateAvail_spec {availDiff : List SAvailDiff} (hd : DiffsInRange size availDiff) (b1st : Bool) :
    Canonical availMapOps size (updateAvail avail availDiff b1st) ∧
      ∀ x, stateAt availMapOps (updateAvail avail availDiff b1st) x =
        (changesAt availDiff x).foldl (countChange b1st) (stateAt availMapOps avail x) := by
  obtain ⟨hc, hs⟩ := h.foldl (updateStep b1st)
    (fun x c diff => if diff.Covers x then countChange b1st c (diff.uNew, diff.uOld) else c)
    fun map hm diff hdiff => updateStep_spec hm hsize (hd diff hdiff).1 (hd diff hdiff).2 b1st
  refine ⟨hc, fun x => (hs x).trans ?_⟩
  rw [changesAt, List.foldl_map, List.foldl_filter]
  simp only [decide_eq_true_eq]

/-- The loop over the ranges of a transfer's map changes the count of exactly
the bytes that are available there. -/
theorem countParts_spec {map : CRangeMap (BitVec 16)} (hmap : Canonical shareMapOps size map) (eMode : ESet)
    (uAvailableBytes : ℕ) : Canonical availMapOps size (countParts eMode avail ⟨some map, uAvailableBytes⟩) ∧
      ∀ x < size, stateAt availMapOps (countParts eMode avail ⟨some map, uAvailableBytes⟩) x =
        if isAvailable (stateAt shareMapOps map x) then
          availMakeState (stateAt availMapOps avail x) 1 eMode
        else stateAt availMapOps avail x := by
  have hspec := rangesOf_collected hmap hsize (show 0 < minusOne by decide) (show minusOne < 2 ^ 64 by decide) 0
  unfold countParts
  dsimp only
  generalize rangesOf shareMapOps map 0 minusOne 0 = ranges at hspec
  have hsize' : min minusOne size = size := by
    rw [minusOne]
    omega
  have hpos : 0 < size := by
    obtain ⟨last, hm, he⟩ := hmap.exists_last
    have := hmap.positive last hm
    omega
  have htiles := hspec.tiles hpos
  rw [hsize'] at htiles
  obtain ⟨hc, hs⟩ := h.foldl (fun avail range => if isAvailable range.value then
      avail.setRange availMapOps range.first range.last 1 eMode else avail)
    (fun x c range => if (range.first ≤ x ∧ x < range.last) ∧ isAvailable range.value = true then
      availMakeState c 1 eMode else c)
    fun map hm range hr => setRange_if hm hsize (htiles.bounds hr).2.1 (htiles.bounds hr).2.2
      eMode (isAvailable range.value = true)
  refine ⟨hc, fun x hx => (hs x).trans ?_⟩
  have hvalue : ∀ range ∈ ranges, range.Covers x → range.value = stateAt shareMapOps map x := by
    intro range hm hcov
    have hseen := hspec.same range hm x hcov
    rw [seen, Option.map_eq_some_iff] at hseen
    obtain ⟨v, hv, hval⟩ := hseen
    rw [stateAt, hv, Option.getD_some, ← hval]
    rfl
  have hfilter := htiles.filter_covers hvalue isAvailable
  have hfold : ((ranges.filter fun range => range.Covers x && isAvailable range.value).map
      Span.value).foldl (fun c _ => availMakeState c 1 eMode) (stateAt availMapOps avail x) =
      (ranges.filter fun range => range.Covers x && isAvailable range.value).foldl
        (fun c _ => availMakeState c 1 eMode) (stateAt availMapOps avail x) := List.foldl_map
  rw [hfilter, List.foldl_filter] at hfold
  have hin : 0 ≤ x ∧ x < size := ⟨Nat.zero_le x, hx⟩
  simp only [Bool.and_eq_true, decide_eq_true_eq, hin, true_and, and_self] at hfold
  refine hfold.symm.trans ?_
  split <;> rfl

end

end Count

section Exact

/-- The byte is available from the transfer. -/
def CTransfer.available (t : CTransfer) (x : ℕ) : Bool :=
  match t.parts with
  | some map => isAvailable (stateAt shareMapOps map x)
  | none => false

/-- The map of the transfer, if it has one, covers the file. -/
def CTransfer.Ok (N : ℕ) (t : CTransfer) : Prop :=
  ∀ map, t.parts = some map → Canonical shareMapOps N map

variable {N : ℕ} {t : CTransfer}

theorem CTransfer.Ok.map (h : t.Ok N) (hpos : 0 < N) : Canonical shareMapOps N (t.map N) := by
  unfold CTransfer.map
  cases hp : t.parts with
  | none => exact canonical_create shareMapOps hpos
  | some map => exact h map hp

theorem CTransfer.available_eq (N : ℕ) (t : CTransfer) (x : ℕ) :
    t.available x = isAvailable (stateAt shareMapOps (t.map N) x) := by
  unfold CTransfer.available CTransfer.map
  cases t.parts with
  | none =>
    rw [Option.getD_none, stateAt_create]
    rfl
  | some map => rfl

theorem CTransfer.available_of_isNone (h : t.parts.isNone = true) (x : ℕ) : t.available x = false := by
  unfold CTransfer.available
  rw [Option.isNone_iff_eq_none.mp h]

/-- The wide test of the available flag. -/
theorem wide_available_iff (v : BitVec 16) :
    v.setWidth 32 &&& BitVec.ofNat 32 Part.Available ≠ 0 ↔ isAvailable v = true := by
  have hflag : BitVec.ofNat 32 Part.Available = (BitVec.ofNat 16 Part.Available).setWidth 32 := by decide
  rw [hflag, ← BitVec.setWidth_and, isAvailable, bne_iff_ne, not_iff_not]
  constructor
  · intro he
    have hnarrow := congrArg (BitVec.setWidth 16) he
    simpa only [BitVec.setWidth_setWidth_of_le, BitVec.setWidth_eq, Nat.reduceLeDiff,
      BitVec.ofNat_eq_ofNat, BitVec.setWidth_zero] using hnarrow
  · intro he
    rw [he]
    rfl

/-- An entry with the old and the new availability of a transfer changes the
count by the difference, if the first map of a transfer starts from nothing. -/
theorem toNat_countChange {b1st was now : Bool} {c : BitVec 32} {n : ℕ} {uNew uOld : BitVec 32}
    (hnew : uNew &&& BitVec.ofNat 32 Part.Available ≠ 0 ↔ now = true)
    (hold : uOld &&& BitVec.ofNat 32 Part.Available ≠ 0 ↔ was = true)
    (hc : c.toNat = n + was.toNat) (hn : n + 2 < 2 ^ 32) (h1st : b1st = true → was = false) :
    (countChange b1st c (uNew, uOld)).toNat = n + now.toNat := by
  have hadd : (if uNew &&& BitVec.ofNat 32 Part.Available ≠ 0 then c + 1 else c).toNat = n + was.toNat + now.toNat := by
    have hwas : was.toNat ≤ 1 := Bool.toNat_le was
    by_cases hnow : now = true
    · rw [if_pos (hnew.mpr hnow), BitVec.toNat_add, hc, hnow]
      exact Nat.mod_eq_of_lt (by simp only [BitVec.reduceToNat]; omega)
    · rw [if_neg fun h => hnow (hnew.mp h), hc, eq_false_of_ne_true hnow, Bool.toNat_false, Nat.add_zero]
  unfold countChange
  dsimp only
  by_cases hwas : was = true
  · have hfalse : b1st = false := by
      by_contra hne
      rw [h1st (eq_true_of_ne_false hne)] at hwas
      cases hwas
    rw [if_pos ⟨hfalse, hold.mpr hwas⟩, toNat_numClr, hadd, hwas]
    simp only [Bool.toNat_true, BitVec.reduceToNat]
    omega
  · rw [if_neg fun h => hwas (hold.mp h.2), hadd, eq_false_of_ne_true hwas, Bool.toNat_false, Nat.add_zero]

/-- The entry for a bit changes the count by the difference. -/
theorem toNat_foldl_changeOf {uState v : BitVec 16} (ha : isAvailable uState = true)
    (bit : Bool) {b1st : Bool} {c : BitVec 32} {n : ℕ} (hc : c.toNat = n + (isAvailable v).toNat)
    (hn : n + 2 < 2 ^ 32) (h1st : b1st = true → isAvailable v = false) :
    ((changeOf uState v bit).foldl (countChange b1st) c).toNat = n + bit.toNat := by
  unfold changeOf
  by_cases hne : v &&& uState = bitFlags uState bit
  · rw [if_neg (not_not.mpr hne), List.foldl_nil, hc, isAvailable_of_flags ha hne]
  · rw [if_pos hne, List.foldl_cons, List.foldl_nil]
    refine toNat_countChange ?_ ?_ hc hn h1st
    · rw [wide_available_iff]
      cases bit with
      | true => exact iff_of_true ha rfl
      | false =>
        have hzero : isAvailable (bitFlags uState false) = false := by
          change isAvailable 0 = false
          decide
        exact iff_of_false (ne_true_of_eq_false hzero) Bool.false_ne_true
    · rw [wide_available_iff, isAvailable_eq, isAvailable_eq, BitVec.getLsbD_and,
        ← isAvailable_eq uState, ha, Bool.and_true]

/-- An announcement changed the count of every byte by the difference it made
to the map of the transfer. -/
structure Exact (N : ℕ) (t : CTransfer) (avail : CRangeMap (BitVec 32))
    (result : CTransfer × CRangeMap (BitVec 32)) : Prop where
  /-- The map of the transfer covers the file. -/
  ok : result.1.Ok N
  /-- The count covers the file. -/
  canonical : Canonical availMapOps N result.2
  /-- With the other transfers' number, the count is right again. -/
  count : ∀ x < N, ∀ n, (stateAt availMapOps avail x).toNat = n + (t.available x).toNat →
    n + 2 < 2 ^ 32 → (stateAt availMapOps result.2 x).toNat = n + (result.1.available x).toNat

theorem exact_refl {avail : CRangeMap (BitVec 32)} (ht : t.Ok N)
    (h : Canonical availMapOps N avail) : Exact N t avail (t, avail) :=
  ⟨ht, h, fun _ _ _ hc _ => hc⟩

theorem exact_allocate {avail : CRangeMap (BitVec 32)} (hpos : 0 < N) (ht : t.Ok N)
    (h : Canonical availMapOps N avail) (uAvailableBytes : ℕ) :
    Exact N t avail (⟨some (t.map N), uAvailableBytes⟩, avail) := by
  refine ⟨fun map hm => ?_, h, fun x _ n hc _ => ?_⟩
  · rw [← Option.some.inj hm]
    exact ht.map hpos
  · rw [hc, t.available_eq N]
    rfl

/-- A new map with the difference to it. -/
theorem exact_updateAvail {avail : CRangeMap (BitVec 32)} (h : Canonical availMapOps N avail)
    (hN : N < 2 ^ 64) {map : CRangeMap (BitVec 16)} (hmap : Canonical shareMapOps N map)
    {availDiff : List SAvailDiff} (hd : DiffsInRange N availDiff)
    (hcount : ∀ x < N, ∀ n (c : BitVec 32), c.toNat = n + (t.available x).toNat →
      n + 2 < 2 ^ 32 → ((changesAt availDiff x).foldl (countChange t.parts.isNone) c).toNat =
        n + (isAvailable (stateAt shareMapOps map x)).toNat) (uAvailableBytes : ℕ) :
    Exact N t avail (⟨some map, uAvailableBytes⟩, updateAvail avail availDiff t.parts.isNone) := by
  obtain ⟨hc, hs⟩ := updateAvail_spec h hN hd t.parts.isNone
  refine ⟨fun other hm => ?_, hc, fun x hx n hn hlt => ?_⟩
  · rw [← Option.some.inj hm]
    exact hmap
  · rw [hs x]
    exact hcount x hx n _ hn hlt

end Exact

section Handlers

theorem isAvailable_announced : isAvailable announced = true := by decide

/-- When a bit array passes on its exact difference although its first run
starts too long: the part ends in the file, and a first map does not have the
first bit set; or it does not, and every byte was as the first bit says. -/
def BitsExact (L : BitLayout) (bits : List Bool) (t : CTransfer) : Prop :=
  LongFirstRun L bits → (L.partSize ≤ L.size ∧ (t.parts.isNone = true → bits.getD 0 false = false)) ∨
      (L.size < L.partSize ∧ ∀ x < L.size, t.available x = bits.getD 0 false)

/-- The count of a byte after the entries of a first run that starts too long. -/
theorem toNat_changes_long {L : BitLayout} {bits : List Bool} {t : CTransfer} {final : BitRun}
    (hf : LongRunFacts L bits (t.map L.size) announced final) (hlong : LongFirstRun L bits)
    (hexact : BitsExact L bits t) {x : ℕ} (hx : x < L.size) {n : ℕ} {c : BitVec 32}
    (hc : c.toNat = n + (t.available x).toNat) (hn : n + 2 < 2 ^ 32) :
    ((changesAt final.availDiff x).foldl (countChange t.parts.isNone) c).toNat =
      n + (isAvailable (stateAt shareMapOps final.map x)).toNat := by
  obtain ⟨-, -, hbp⟩ := hf.block_lt
  have ha := isAvailable_announced
  have hnone : t.parts.isNone = true → isAvailable (stateAt shareMapOps (t.map L.size) x) = false := fun h => by
    rw [← t.available_eq, CTransfer.available_of_isNone h]
  have hchanges := hf.changes x
  have hlow := hf.low x
  have hhigh := hf.high x
  rw [t.available_eq L.size] at hc
  rw [hchanges, List.foldl_append]
  rcases hexact hlong with ⟨hpart, hfirst⟩ | ⟨hpart, hsame⟩
  · rcases Nat.lt_or_ge x L.partSize with hin | hout
    · -- the first bit was set on the whole part, later bits start from there
      have hc1 := toNat_foldl_changeOf ha (bits.getD 0 false) hc hn hnone
      rw [if_pos (by omega)]
      rcases Nat.lt_or_ge x L.blockSize with hblock | hblock
      · rw [if_neg (by omega), List.foldl_nil, hc1, hlow hblock, if_pos hpart, isAvailable_applyBit ha]
      · rw [if_pos ⟨hblock, hx⟩, if_pos ⟨hin, hpart⟩, hhigh hblock hx]
        refine toNat_foldl_changeOf ha _ ?_ hn fun h => ?_
        · rw [hc1, isAvailable_applyBit ha]
        · rw [isAvailable_applyBit ha, hfirst h]
    · rw [if_neg (by omega), List.foldl_nil, if_pos ⟨by omega, hx⟩, if_neg (by omega), hhigh (by omega) hx]
      exact toNat_foldl_changeOf ha _ hc hn hnone
  · have hwas := hsame x hx
    rw [t.available_eq L.size] at hwas
    have hc1 := toNat_foldl_changeOf ha (bits.getD 0 false) hc hn hnone
    rw [if_pos (by omega)]
    rcases Nat.lt_or_ge x L.blockSize with hblock | hblock
    · rw [if_neg (by omega), List.foldl_nil, hc1, hlow hblock, if_neg (by omega), hwas]
    · rw [if_pos ⟨hblock, hx⟩, if_neg (by omega), hhigh hblock hx]
      refine toNat_foldl_changeOf ha _ ?_ hn hnone
      rw [hc1, hwas]

/-- A bit array passes on its exact difference. -/
theorem partsAvailable_exact (L : BitLayout) {bits : List Bool} (hlen : bits.length = L.bitCount)
    {t : CTransfer} (ht : t.Ok L.size) {avail : CRangeMap (BitVec 32)}
    (h : Canonical availMapOps L.size avail) (hexact : BitsExact L bits t) :
    Exact L.size t avail (partsAvailable L.size bits L.partSize L.blockSize t avail) := by
  have hfit := L.fits
  have hpart := L.partSize_pos
  have ha := isAvailable_announced
  have hmap := ht.map L.size_pos
  have hstate : announced ≠ 0 := by decide
  unfold partsAvailable
  by_cases hlong : LongFirstRun L bits
  · have hf := longRunFacts L hlen hmap ha hstate hlong
    exact exact_updateAvail h (by omega) hf.canonical hf.inRange
      (fun x hx n c hc hn => toNat_changes_long hf hlong hexact hx hc hn) _
  · have hp := fromBitArray_progress L hlen hmap hstate hlong
    refine exact_updateAvail h (by omega) hp.canonical (hp.inRange fun diff hm => by cases hm)
      (fun x hx n c hc hn => ?_) _
    have hnil : changesAt (firstRun L bits (t.map L.size)).availDiff x = [] := rfl
    rw [hp.changes, hp.state, hnil, List.nil_append, if_pos ⟨Nat.zero_le x, hx⟩,
      if_pos ⟨Nat.zero_le x, hx⟩, isAvailable_applyBit ha]
    refine toNat_foldl_changeOf ha _ ?_ hn fun hnone => ?_
    · rw [hc, t.available_eq L.size]
      rfl
    · have hfalse := CTransfer.available_of_isNone hnone x
      rwa [t.available_eq L.size] at hfalse

/-- When the announcement of a unit passes on its exact difference: all or
nothing of the unit was available before. -/
def UnitExact (N uUnitSize index : ℕ) (t : CTransfer) : Prop :=
  ∃ was, ∀ x, index * uUnitSize % 2 ^ 64 ≤ x → x < min (index * uUnitSize % 2 ^ 64 + uUnitSize) N → t.available x = was

theorem isAvailable_inter (u v : BitVec 16) : isAvailable (shareMapOps.mergeState u v EMerge.eInter) = true ↔
      isAvailable u = true ∧ isAvailable v = true := by
  have hmerge : shareMapOps.mergeState u v EMerge.eInter = u &&& v := rfl
  rw [hmerge, isAvailable_eq, isAvailable_eq, isAvailable_eq, BitVec.getLsbD_and, Bool.and_eq_true]

/-- The announcement of a unit passes on its exact difference. -/
theorem unitAvailable_exact {N uUnitSize : ℕ} (hpos : 0 < N) (hunit : 0 < uUnitSize)
    (hfits : N + uUnitSize ≤ 2 ^ 64) (index : ℕ) {t : CTransfer} (ht : t.Ok N)
    {avail : CRangeMap (BitVec 32)} (h : Canonical availMapOps N avail) (hexact : UnitExact N uUnitSize index t) :
    Exact N t avail (unitAvailable N uUnitSize index t avail) := by
  have hN : N < 2 ^ 64 := by omega
  have ha := isAvailable_announced
  have hmap := ht.map hpos
  obtain ⟨was, hwas⟩ := hexact
  unfold unitAvailable
  dsimp only
  generalize index * uUnitSize % 2 ^ 64 = uBegin at *
  by_cases hpast : uBegin ≥ N
  · rw [if_pos hpast]
    exact exact_allocate hpos ht h _
  · have hend : (if (uBegin + uUnitSize) % 2 ^ 64 > N then N else (uBegin + uUnitSize) % 2 ^ 64) =
        min (uBegin + uUnitSize) N := by
      rw [Nat.mod_eq_of_lt (by omega)]
      split <;> omega
    rw [if_neg hpast, hend]
    generalize hE : min (uBegin + uUnitSize) N = uEnd at *
    have hlt : uBegin < uEnd := by omega
    have hle : uEnd ≤ N := by omega
    have hmask : ∀ v, CRangeMap.masked shareMapOps 0 v = v := fun v => if_neg (by decide)
    have hrange := @getRange_forall _ shareMapOps N (t.map N) hmap hN EMerge.eInter
      (fun v => isAvailable v = true) isAvailable_inter uBegin uEnd hlt hle 0
    split_ifs with hget
    · -- the unit is not available, so nothing of it was
      have hfalse : was = false := by
        by_contra hne
        rw [hrange.mpr fun x h1 h2 => ?_] at hget
        · cases hget
        · rw [hmask, ← t.available_eq, hwas x h1 h2]
          exact eq_true_of_ne_false hne
      refine exact_updateAvail h hN (setRange_canonical hmap hN hlt hle _ _)
        (fun diff hm => ?_) (fun x hx n c hc hn => ?_) _
      · rw [List.mem_singleton.mp hm]
        exact ⟨hlt, hle⟩
      · have hcov : SAvailDiff.Covers ⟨uBegin, uEnd, BitVec.ofNat 32 Part.Available, 0⟩ x ↔
            uBegin ≤ x ∧ x < uEnd := Iff.rfl
        rw [stateAt_setRange hmap hN hlt hle, changesAt_singleton]
        by_cases hin : uBegin ≤ x ∧ x < uEnd
        · have hset := isAvailable_applyBit ha (stateAt shareMapOps (t.map N) x) true
          have hwas' : c.toNat = n + Bool.toNat false := by rw [hc, hwas x hin.1 hin.2, hfalse]
          have hcount : (countChange t.parts.isNone c
              (BitVec.ofNat 32 Part.Available, 0)).toNat = n + Bool.toNat true :=
            toNat_countChange (iff_of_true (by decide) rfl)
              (iff_of_false (by decide) Bool.false_ne_true) hwas' hn fun _ => rfl
          rw [if_pos hin, if_pos (hcov.mpr hin), List.foldl_cons, List.foldl_nil, hcount]
          exact congrArg (fun b : Bool => n + b.toNat) hset.symm
        · rw [if_neg hin, if_neg (mt hcov.mp hin), List.foldl_nil, hc, t.available_eq N]
    · exact exact_allocate hpos ht h _

/-- Setting or clearing the whole file passes on its exact difference. -/
theorem availUpdate_exact {N : ℕ} (hpos : 0 < N) (hN : N < 2 ^ 64) {t : CTransfer} (ht : t.Ok N)
    {avail : CRangeMap (BitVec 32)} (h : Canonical availMapOps N avail) (bit : Bool) (uAvailableBytes : ℕ) :
    Exact N t avail (⟨some ((t.map N).setRange shareMapOps 0 minusOne announced
        (if bit then ESet.eAdd else ESet.eClr)), uAvailableBytes⟩,
      updateAvail avail (availUpdate [] 0 minusOne
        (if bit then (BitVec.ofNat 16 Part.Available).setWidth 32 else 0) (t.map N)
          ((BitVec.ofNat 16 Part.Available).setWidth 32)) t.parts.isNone) := by
  have hmap := ht.map hpos
  have ha := isAvailable_announced
  have hminus : minusOne < 2 ^ 64 := by decide
  have hlt : 0 < minusOne := by decide
  have hflag : BitVec.ofNat 16 Part.Available ≠ 0 := by decide
  rw [setRange_minusOne, hmap.getSize]
  refine exact_updateAvail h hN (setRange_canonical hmap hN hpos le_rfl _ _)
    (diffsInRange_availUpdate hmap hN hlt hminus _ _ fun diff hm => by cases hm)
    (fun x hx n c hc hn => ?_) _
  have hin : 0 ≤ x ∧ x < min minusOne N := by
    rw [minusOne]
    omega
  have hset := isAvailable_applyBit ha (stateAt shareMapOps (t.map N) x) bit
  rw [changesAt_availUpdate hmap hN hlt hminus hflag, if_pos hin,
    stateAt_setRange hmap hN hpos le_rfl, if_pos ⟨Nat.zero_le x, hx⟩]
  refine (toNat_foldl_changeOf (by decide) bit ?_ hn fun hnone => ?_).trans
    (congrArg (fun b : Bool => n + b.toNat) hset.symm)
  · rw [hc, t.available_eq N]
  · have hfalse := CTransfer.available_of_isNone hnone x
    rwa [t.available_eq N] at hfalse

end Handlers

section Events

variable {N : ℕ}

/-- What a transfer can receive: a bit array has one bit for each part or block,
and the end of a unit that starts in the file is an offset. -/
def Announcement.Received (N : ℕ) : Announcement → Prop
  | Announcement.parts bits uPartSize uBlockSize => ∃ L : BitLayout, L.size = N ∧
    L.partSize = uPartSize ∧ L.blockSize = uBlockSize ∧ bits.length = L.bitCount
  | Announcement.pieces info fullPieces => info.uPieceLength ≠ 0 → ∃ L : BitLayout, L.size = N ∧
    L.partSize = info.uPieceLength ∧ L.blockSize = 0 ∧ fullPieces.length = L.bitCount
  | Announcement.piece info _ => N + info.uPieceLength ≤ 2 ^ 64
  | Announcement.crumb _ => N + ed2kCrumbSize ≤ 2 ^ 64
  | Announcement.haveAll _ => True
  | Announcement.haveNone _ => True

/-- When the difference that an announcement passes on is the one it makes. -/
def Announcement.Faithful (N : ℕ) (t : CTransfer) : Announcement → Prop
  | Announcement.parts bits uPartSize uBlockSize => ∀ L : BitLayout, L.size = N →
    L.partSize = uPartSize → L.blockSize = uBlockSize → BitsExact L bits t
  | Announcement.pieces _ _ => True
  | Announcement.piece info index => info.uPieceLength ≠ 0 → UnitExact N info.uPieceLength index t
  | Announcement.crumb index => UnitExact N ed2kCrumbSize index t
  | Announcement.haveAll _ => True
  | Announcement.haveNone _ => True

section

variable (hpos : 0 < N) (hN : N < 2 ^ 64) {t : CTransfer} (ht : t.Ok N) {avail : CRangeMap (BitVec 32)}
  (h : Canonical availMapOps N avail)

include hpos hN ht h

/-- A first announcement of nothing leaves the count alone. -/
theorem onHaveNone_first (hnone : t.parts.isNone = true) :
    Exact N t avail (⟨some ((t.map N).setRange shareMapOps 0 minusOne announced ESet.eClr), 0⟩,
      updateAvail avail [⟨0, N, 0, 0⟩] t.parts.isNone) := by
  have hmap := ht.map hpos
  have ha := isAvailable_announced
  rw [setRange_minusOne, hmap.getSize]
  refine exact_updateAvail h hN (setRange_canonical hmap hN hpos le_rfl _ _) (fun diff hm => ?_)
    (fun x hx n c hc hn => ?_) _
  · rw [List.mem_singleton.mp hm]
    exact ⟨hpos, le_rfl⟩
  · have hcov : SAvailDiff.Covers ⟨0, N, 0, 0⟩ x := ⟨Nat.zero_le x, hx⟩
    have hset := isAvailable_applyBit ha (stateAt shareMapOps (t.map N) x) false
    have hwas : c.toNat = n + Bool.toNat false := by
      rw [hc, CTransfer.available_of_isNone hnone]
    have hcount : (countChange t.parts.isNone c (0, 0)).toNat = n + Bool.toNat false :=
      toNat_countChange (iff_of_false (by decide) Bool.false_ne_true)
        (iff_of_false (by decide) Bool.false_ne_true) hwas hn fun _ => rfl
    rw [changesAt_singleton, if_pos hcov, List.foldl_cons, List.foldl_nil, hcount,
      stateAt_setRange hmap hN hpos le_rfl, if_pos ⟨Nat.zero_le x, hx⟩]
    exact congrArg (fun b : Bool => n + b.toNat) hset.symm

/-- Every announcement that passes on its difference keeps the count right. -/
theorem announce_exact {a : Announcement} (hreceived : a.Received N) (hfaithful : a.Faithful N t) :
    Exact N t avail (announce N a t avail) := by
  cases a with
  | parts bits uPartSize uBlockSize =>
    obtain ⟨L, rfl, rfl, rfl, hlen⟩ := hreceived
    exact partsAvailable_exact L hlen ht h (hfaithful L rfl rfl rfl)
  | pieces info fullPieces =>
    simp only [announce, onPiecesAvailable]
    split_ifs with hempty
    · exact exact_refl ht h
    · obtain ⟨L, rfl, hpart, hblock, hlen⟩ := hreceived hempty
      rw [← hpart, ← hblock]
      exact partsAvailable_exact L hlen ht h fun hlong => absurd hblock hlong.1
  | piece info index =>
    simp only [announce, onPieceAvailable]
    split_ifs with hempty
    · exact exact_refl ht h
    · exact unitAvailable_exact hpos (Nat.pos_of_ne_zero hempty) hreceived index ht h (hfaithful hempty)
  | crumb index =>
    exact unitAvailable_exact hpos (by decide) hreceived index ht h hfaithful
  | haveAll info =>
    simp only [announce, onHaveAll]
    split_ifs with hempty
    · exact exact_refl ht h
    · exact availUpdate_exact hpos hN ht h true _
  | haveNone info =>
    simp only [announce, onHaveNone]
    split_ifs with hempty hnone
    · exact exact_refl ht h
    · exact onHaveNone_first hpos hN ht h hnone
    · exact availUpdate_exact hpos hN ht h false 0

end

/-- What can happen to the transfers of a file: a transfer that is added has a
map of the file or none, and there are not too many of them. -/
def Event.Received (N : ℕ) (file : CFile) : Event → Prop
  | Event.add t => t.Ok N ∧ file.transfers.length + 2 < 2 ^ 32
  | Event.announce _ a => a.Received N
  | Event.remove _ => True

/-- When an event passes on the difference it makes. -/
def Event.Faithful (N : ℕ) (file : CFile) : Event → Prop
  | Event.add _ => True
  | Event.announce i a => ∀ t, file.transfers[i]? = some t → a.Faithful N t
  | Event.remove _ => True

/-- Every event of a run can happen and passes on the difference it makes. -/
def StepsOk (N : ℕ) : CFile → List Event → Prop
  | _, [] => True
  | file, event :: events =>
    (event.Received N file ∧ event.Faithful N file) ∧ StepsOk N (step N file event) events

/-- The transfers that have a byte available. -/
def sources (file : CFile) (x : ℕ) : ℕ := file.transfers.countP fun t => t.available x

/-- The invariant of a file. -/
structure Counted (N : ℕ) (file : CFile) : Prop where
  /-- The count covers the file. -/
  canonical : Canonical availMapOps N file.availability
  /-- The maps of the transfers cover the file. -/
  ok : ∀ t ∈ file.transfers, t.Ok N
  /-- A counter holds the number of transfers, and one more. -/
  few : file.transfers.length + 1 < 2 ^ 32
  /-- Each byte is counted once for each transfer that has it available. -/
  count : ∀ x < N, (stateAt availMapOps file.availability x).toNat = sources file x

theorem counted_setup (hpos : 0 < N) : Counted N (setup N) where
  canonical := canonical_create availMapOps hpos
  ok := fun t hm => by cases hm
  few := by
    simp only [setup, List.length_nil]
    omega
  count := fun x _ => by
    unfold setup sources
    rw [stateAt_create]
    rfl

theorem countP_available_cons (t : CTransfer) (ts : List CTransfer) (x : ℕ) :
    (t :: ts).countP (fun t => t.available x) = ts.countP (fun t => t.available x) + (t.available x).toNat := by
  rw [List.countP_cons]
  cases t.available x <;> rfl

theorem sources_split {file : CFile} {i : ℕ} {t : CTransfer} (hi : file.transfers[i]? = some t)
    (x : ℕ) : sources file x = (file.transfers.eraseIdx i).countP (fun t => t.available x) + (t.available x).toNat := by
  obtain ⟨hlt, rfl⟩ := List.getElem?_eq_some_iff.mp hi
  unfold sources
  rw [← (List.getElem_cons_eraseIdx_perm hlt).countP_eq, countP_available_cons]

theorem countP_eraseIdx_add_two_lt {file : CFile} (hfew : file.transfers.length + 1 < 2 ^ 32)
    {i : ℕ} {t : CTransfer} (hi : file.transfers[i]? = some t) (x : ℕ) :
    (file.transfers.eraseIdx i).countP (fun t => t.available x) + 2 < 2 ^ 32 := by
  obtain ⟨hlt, -⟩ := List.getElem?_eq_some_iff.mp hi
  have hle := List.countP_le_length (p := fun t => CTransfer.available t x) (l := file.transfers.eraseIdx i)
  rw [List.length_eraseIdx_of_lt hlt] at hle
  omega

section

variable {file : CFile} (h : Counted N file)

include h

theorem counted_add (hN : N < 2 ^ 64) {t : CTransfer} (ht : t.Ok N) (hfew : file.transfers.length + 2 < 2 ^ 32) :
    Counted N (step N file (Event.add t)) := by
  have hok : ∀ other ∈ t :: file.transfers, other.Ok N := fun other hm => by
    rcases List.mem_cons.mp hm with rfl | hm
    · exact ht
    · exact h.ok other hm
  have hcons := fun x => countP_available_cons t file.transfers x
  have hlen : (t :: file.transfers).length + 1 < 2 ^ 32 := by
    rw [List.length_cons]
    omega
  obtain ⟨parts, uAvailableBytes⟩ := t
  cases parts with
  | none => exact ⟨h.canonical, hok, hlen, fun x hx => (h.count x hx).trans (hcons x).symm⟩
  | some map =>
    obtain ⟨hc, hs⟩ := countParts_spec h.canonical hN (ht map rfl) ESet.eAdd uAvailableBytes
    refine ⟨hc, hok, hlen, fun x hx => ?_⟩
    have hcount : _ = file.transfers.countP fun t => t.available x := h.count x hx
    have hle := List.countP_le_length (p := fun t => CTransfer.available t x) (l := file.transfers)
    have hdef : CTransfer.available ⟨some map, uAvailableBytes⟩ x = isAvailable (stateAt shareMapOps map x) := rfl
    refine ((congrArg BitVec.toNat (hs x hx)).trans ?_).trans (hcons x).symm
    rw [hdef]
    split_ifs with hav
    · rw [availMakeState, BitVec.toNat_add, hcount, hav]
      exact Nat.mod_eq_of_lt (by simp only [BitVec.reduceToNat]; omega)
    · rw [hcount, eq_false_of_ne_true hav]
      rfl

/-- A transfer that is removed takes away what it has. -/
theorem counted_remove (hN : N < 2 ^ 64) (i : ℕ) : Counted N (step N file (Event.remove i)) := by
  cases hi : file.transfers[i]? with
  | none =>
    simp only [step, hi]
    exact h
  | some t =>
    simp only [step, hi]
    have hm := List.mem_of_getElem? hi
    have hok : ∀ other ∈ file.transfers.eraseIdx i, other.Ok N := fun other ho =>
      h.ok other (List.mem_of_mem_eraseIdx ho)
    have hlen := List.length_eraseIdx_le file.transfers i
    have hfew := h.few
    have hsplit := sources_split hi
    have ht := h.ok t hm
    obtain ⟨parts, uAvailableBytes⟩ := t
    cases parts with
    | none =>
      refine ⟨h.canonical, hok, by dsimp only; omega, fun x hx => ?_⟩
      exact (h.count x hx).trans (hsplit x)
    | some map =>
      obtain ⟨hc, hs⟩ := countParts_spec h.canonical hN (ht map rfl) ESet.eClr uAvailableBytes
      refine ⟨hc, hok, by dsimp only; omega, fun x hx => ?_⟩
      have hcount := (h.count x hx).trans (hsplit x)
      refine (congrArg BitVec.toNat (hs x hx)).trans ?_
      have hdef : CTransfer.available ⟨some map, uAvailableBytes⟩ x = isAvailable (stateAt shareMapOps map x) := rfl
      rw [hdef] at hcount
      split_ifs with hav
      · rw [availMakeState, toNat_numClr, hcount, hav]
        exact Nat.add_sub_cancel _ _
      · rw [hcount, eq_false_of_ne_true hav]
        rfl

/-- An announcement that passes on its difference keeps the count right. -/
theorem counted_announce (hpos : 0 < N) (hN : N < 2 ^ 64) (i : ℕ) {a : Announcement} (hreceived : a.Received N)
    (hfaithful : ∀ t, file.transfers[i]? = some t → a.Faithful N t) : Counted N (step N file (Event.announce i a)) := by
  cases hi : file.transfers[i]? with
  | none =>
    simp only [step, hi]
    exact h
  | some t =>
    simp only [step, hi]
    have hm := List.mem_of_getElem? hi
    obtain ⟨hlt, -⟩ := List.getElem?_eq_some_iff.mp hi
    have he := announce_exact hpos hN (h.ok t hm) h.canonical hreceived (hfaithful t hi)
    generalize announce N a t file.availability = result at he
    refine ⟨he.canonical, fun other ho => ?_, ?_, fun x hx => ?_⟩
    · rcases List.mem_or_eq_of_mem_set ho with hother | rfl
      · exact h.ok other hother
      · exact he.ok
    · dsimp only
      rw [List.length_set]
      exact h.few
    · have hcount := he.count x hx _ ((h.count x hx).trans (sources_split hi x)) (countP_eraseIdx_add_two_lt h.few hi x)
      refine hcount.trans ?_
      unfold sources
      rw [(List.set_perm_cons_eraseIdx hlt result.1).countP_eq, countP_available_cons]

theorem counted_step (hpos : 0 < N) (hN : N < 2 ^ 64)
    {event : Event} (hreceived : event.Received N file) (hfaithful : event.Faithful N file) :
    Counted N (step N file event) := by
  cases event with
  | add t => exact counted_add h hN hreceived.1 hreceived.2
  | announce i a => exact counted_announce h hpos hN i hreceived hfaithful
  | remove i => exact counted_remove h hN i

theorem counted_run (hpos : 0 < N) (hN : N < 2 ^ 64)
    {events : List Event} (hok : StepsOk N file events) : Counted N (run N file events) := by
  induction events generalizing file with
  | nil => exact h
  | cons event events ih =>
    obtain ⟨⟨hreceived, hfaithful⟩, hrest⟩ := hok
    exact ih (counted_step h hpos hN hreceived hfaithful) hrest

end

/-- In every run from a file without transfers whose events all pass on the
difference they make, each byte is counted once for each attached transfer that
has it available, and not at all when no transfer is left. -/
theorem run_counts_sources (hpos : 0 < N) (hN : N < 2 ^ 64) {events : List Event} (hok : StepsOk N (setup N) events) :
    (∀ x < N, (stateAt availMapOps (run N (setup N) events).availability x).toNat =
      (run N (setup N) events).transfers.countP fun t => t.available x) ∧
    ((run N (setup N) events).transfers = [] →
      ∀ x < N, stateAt availMapOps (run N (setup N) events).availability x = 0) := by
  have h := counted_run (counted_setup hpos) hpos hN hok
  refine ⟨h.count, fun hempty x hx => ?_⟩
  have hcount := h.count x hx
  unfold sources at hcount
  rw [hempty, List.countP_nil] at hcount
  exact BitVec.eq_of_toNat_eq hcount

/-- A source with a crumb of a file, which is removed again. -/
theorem run_counts_sources_crumb :
    (∀ x < 1000000, (stateAt availMapOps (run 1000000 (setup 1000000) [Event.add ⟨none, 0⟩,
        Event.announce 0 (Announcement.crumb 0), Event.remove 0]).availability x).toNat =
      (run 1000000 (setup 1000000) [Event.add ⟨none, 0⟩,
        Event.announce 0 (Announcement.crumb 0), Event.remove 0]).transfers.countP fun t => t.available x) ∧
    ((run 1000000 (setup 1000000) [Event.add ⟨none, 0⟩,
        Event.announce 0 (Announcement.crumb 0), Event.remove 0]).transfers = [] →
      ∀ x < 1000000, stateAt availMapOps (run 1000000 (setup 1000000) [Event.add ⟨none, 0⟩,
        Event.announce 0 (Announcement.crumb 0), Event.remove 0]).availability x = 0) :=
  run_counts_sources (by decide) (by decide) ⟨⟨⟨(fun map hm => by cases hm), by decide⟩, trivial⟩,
      ⟨show 1000000 + ed2kCrumbSize ≤ 2 ^ 64 by decide, fun t ht =>
        ⟨false, fun x _ _ => by rw [← Option.some.inj ht]; rfl⟩⟩, ⟨trivial, trivial⟩, trivial⟩

/-- Two ways to a wrong count. A source with the first of three crumbs of a
file, as its first announcement, is counted at bytes it does not get. A source
with two blocks that then completes the crumb they lie in is counted twice. -/
theorem run_miscounts_sources : (stateAt availMapOps (run 1000000 (setup 1000000) [Event.add ⟨none, 0⟩, Event.announce 0
        (Announcement.parts [true, false, false] 9728000 486400)]).availability 0).toNat ≠
      ((run 1000000 (setup 1000000) [Event.add ⟨none, 0⟩, Event.announce 0
        (Announcement.parts [true, false, false] 9728000 486400)]).transfers.countP fun t => t.available 0) ∧
    (stateAt availMapOps (run 1000000 (setup 1000000) [Event.add ⟨none, 0⟩, Event.announce 0
        (Announcement.parts [true, true, false, false, false, false] 9728000 184320),
        Event.announce 0 (Announcement.crumb 0)]).availability 0).toNat ≠
      ((run 1000000 (setup 1000000) [Event.add ⟨none, 0⟩, Event.announce 0
        (Announcement.parts [true, true, false, false, false, false] 9728000 184320),
        Event.announce 0 (Announcement.crumb 0)]).transfers.countP fun t => t.available 0) := by
  decide

end Events

end NeoLoader.AvailabilityCount
