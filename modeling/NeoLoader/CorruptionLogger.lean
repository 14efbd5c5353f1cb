import Mathlib.Data.List.Lex
import Mathlib.Data.Nat.Count
import NeoLoader.BlockIndex
import NeoLoader.HosterMap
import NeoLoader.RangeMapLoop

/-!
# Who sent corrupt data

A logger records which contributor sent which bytes. When the results of a hash are known, the blocks
with a result are taken from the records, and their bytes are counted for or against those who sent
them. A first loop writes the result over the block of a record, with the contributor of that record;
a second one counts and clears.
-/

namespace NeoLoader.CorruptionLogger

open BlockIndex KeyMap RangeMap StepFunction Tiling

section Records

/-- `SRecord::EStatus`. -/
inductive EStatus where
  /-- `eNone`: not a valid record. -/
  | eNone
  /-- `eUnknown`: there is no result yet. -/
  | eUnknown
  | eVerified
  | eCorrupted
  /-- `eAligned`: only a mask, which hides the contributors. -/
  | eAligned
  deriving DecidableEq

structure SRecord where
  eStatus : EStatus
  /-- `ID`: the contributor. -/
  ID : List UInt8
  deriving DecidableEq

/-- `CRecordMap::MakeState`. -/
def makeState (_Cur State : SRecord) : ESet → SRecord
  | ESet.eSet => State
  | ESet.eAdd => ⟨EStatus.eNone, []⟩
  | ESet.eClr => ⟨EStatus.eNone, []⟩

/-- `CRecordMap::MergeState`. -/
def mergeState (Cur _State : SRecord) : EMerge → SRecord
  | EMerge.eInter => ⟨Cur.eStatus, []⟩
  | EMerge.eUnion => ⟨EStatus.eNone, []⟩

/-- The virtual functions of `CRecordMap`. -/
def recordMapOps : StateOps SRecord where
  default := ⟨EStatus.eNone, []⟩
  stateSet := fun Cur => Cur.eStatus ≠ EStatus.eNone
  matchState := fun Cur State => Cur.eStatus = State.eStatus ∧ Cur.ID = State.ID
  makeState := makeState
  mergeState := mergeState
  Stored := fun _ => True
  stateSet_default := decide_eq_false (not_not.mpr rfl)
  stored_default := trivial
  stored_makeState := fun _ _ _ => trivial
  stored_mergeState := fun _ _ _ => trivial
  matchState_iff := by
    rintro ⟨uStatus, uID⟩ ⟨vStatus, vID⟩ _ _
    rw [decide_eq_true_iff, SRecord.mk.injEq]

end Records

section Suspects

/-- The inner loop of `CAbstractKey::Fold`, over one piece of the key. -/
def foldPiece (pOutKey pInKey : List UInt8) : List UInt8 :=
  pOutKey.mapIdx fun j b => b ^^^ pInKey.getD j 0

/-- `CAbstractKey::Fold`. -/
def foldKey (uOutSize : ℕ) (pInKey : List UInt8) : List UInt8 :=
  (List.range ((pInKey.length + uOutSize - 1) / uOutSize)).foldl
    (fun pOutKey i => foldPiece pOutKey (pInKey.drop (i * uOutSize))) (List.replicate uOutSize 0)

/-- `TID`: the eight bytes of a folded contributor, in the order of maps. -/
def fold (ID : List UInt8) : List ℕ := (foldKey 8 ID).map UInt8.toNat

structure SSuspect where
  uVerified : BitVec 64
  uCorrupted : BitVec 64
  uClearTime : ℕ
  uDropped : Bool
  deriving DecidableEq

/-- A new suspect. -/
def SSuspect.new : SSuspect := ⟨0, 0, 0, false⟩

/-- Bytes are counted, by their result. -/
def SSuspect.count (Suspect : SSuspect) (eStatus : EStatus) (uClearTime : ℕ) (n : BitVec 64) :
    SSuspect :=
  if eStatus = EStatus.eVerified then
    { Suspect with uVerified := Suspect.uVerified + n, uClearTime := uClearTime }
  else { Suspect with uCorrupted := Suspect.uCorrupted + n, uClearTime := uClearTime }

end Suspects

section Code

def testRange (Set : List (ℕ × ℕ)) (Val : ℕ × ℕ) : Bool :=
  Set.any fun Cur => decide (Cur.1 < Val.2 ∧ Cur.2 > Val.1)

/-- `CCorruptionLogger`. -/
structure Logger where
  records : CRangeMap SRecord
  suspects : OrderedMap (List ℕ) SSuspect
  deriving DecidableEq

/-- The constructor. -/
def Logger.new (uFileSize : ℕ) : Logger := ⟨CRangeMap.create recordMapOps uFileSize, OrderedMap.empty⟩

/-- `CCorruptionLogger::Record`. -/
def record (uBegin uEnd : ℕ) (ID : List UInt8) (logger : Logger) : Logger :=
  { logger with
    records := logger.records.setRange recordMapOps uBegin uEnd ⟨EStatus.eUnknown, ID⟩ ESet.eSet }

/-- The settings and the time of an evaluation. -/
structure Moment where
  /-- `GetCurTick`. -/
  uNow : ℕ
  /-- `CorruptionLogger/MonitorTime`. -/
  monitorTime : ℕ
  /-- `CorruptionLogger/DropRatio`. -/
  dropRatio : ℕ

/-- `uClearTime`: the monitor time from now on, in milliseconds. -/
def Moment.uClearTime (moment : Moment) : ℕ := (moment.uNow + moment.monitorTime * 1000) % 2 ^ 64

variable (h : CFileHashEx) (s : Status) (moment : Moment)

/-- The inner loop of the first one of `Evaluate`: the result of a block is written over the block. -/
def applyBlock (acc : CRangeMap SRecord × SRecord) (Index : ℕ) : Option (CRangeMap SRecord × SRecord) :=
  (testBit (resized h s) Index).map fun bVerified =>
    if bVerified then
      (acc.1.setRange recordMapOps (indexOffset h Index) (indexOffset h (Index + 1))
        { acc.2 with eStatus := EStatus.eVerified } ESet.eSet,
        { acc.2 with eStatus := EStatus.eVerified })
    else if testRange s.corruptionSet (indexOffset h Index, indexOffset h (Index + 1)) then
      (acc.1.setRange recordMapOps (indexOffset h Index) (indexOffset h (Index + 1))
        { acc.2 with eStatus := EStatus.eCorrupted } ESet.eSet,
        { acc.2 with eStatus := EStatus.eCorrupted })
    else acc

/-- The first loop of `Evaluate`, for one record. -/
def applyRange (records : CRangeMap SRecord) (FileIter : SIterator SRecord) :
    Option (CRangeMap SRecord × SIterator SRecord) :=
  if FileIter.uState.eStatus ≠ EStatus.eUnknown then some (records, FileIter)
  else ((indices (indexRange h FileIter.uBegin FileIter.uEnd true)).foldlM (applyBlock h s)
    (records, FileIter.uState)).map fun acc => (acc.1, FileIter)

/-- The first loop of `Evaluate`: the results of the hash. -/
def applyResults (records : CRangeMap SRecord) : Option (CRangeMap SRecord) :=
  forRanges recordMapOps id recordMapOps.default (fun _ => true) (applyRange h s) 0 minusOne records

/-- The innermost loop of `Evaluate`: the bytes of a contributor, in a number of 32 bits. -/
def contribute (acc : OrderedMap (List ℕ) SSuspect × OrderedMap (List ℕ) (BitVec 32))
    (SubIter : Span SRecord) : OrderedMap (List ℕ) SSuspect × OrderedMap (List ℕ) (BitVec 32) :=
  let tID := fold SubIter.value.ID
  (acc.1.insert tID ((acc.1.get tID).getD SSuspect.new),
    acc.2.insert tID ((acc.2.get tID).getD 0 + BitVec.ofNat 32 (SubIter.last - SubIter.first)))

/-- The second loop of `Evaluate`, for one block. -/
def countBlock (eStatus : EStatus) (records : CRangeMap SRecord)
    (suspects : OrderedMap (List ℕ) SSuspect) (Index : ℕ) : OrderedMap (List ℕ) SSuspect :=
  let Temp := (rangesOf recordMapOps records (indexOffset h Index) (indexOffset h (Index + 1))
    recordMapOps.default).foldl contribute (suspects, OrderedMap.empty)
  Temp.2.entries.foldl (fun suspects I => suspects.insert I.1
    (((suspects.get I.1).getD SSuspect.new).count eStatus moment.uClearTime (I.2.signExtend 64))) Temp.1

/-- The second loop of `Evaluate`, for one range of records with the same result. -/
def countRange (logger : Logger) (Iter : SIterator SRecord) : Option (Logger × SIterator SRecord) :=
  if Iter.uState.eStatus = EStatus.eNone ∨ Iter.uState.eStatus = EStatus.eUnknown then
    some (logger, Iter)
  else
    some (⟨logger.records.setRange recordMapOps Iter.uBegin Iter.uEnd recordMapOps.default ESet.eSet,
      (indices (indexRange h Iter.uBegin Iter.uEnd false)).foldl
        (countBlock h moment Iter.uState.eStatus logger.records) logger.suspects⟩, Iter)

/-- The second loop of `Evaluate`: the bytes are counted. -/
def countRecords (logger : Logger) : Option Logger :=
  forRanges recordMapOps Logger.records ⟨EStatus.eAligned, []⟩ (fun _ => true) (countRange h moment) 0 minusOne logger

/-- `uDropped`: too many of the bytes of a suspect were corrupt. -/
def SSuspect.judge (Percentage : ℕ) (Suspect : SSuspect) : SSuspect :=
  { Suspect with uDropped := decide (Suspect.uCorrupted * 100 >
      (Suspect.uCorrupted + Suspect.uVerified) * BitVec.ofNat 64 Percentage) }

/-- The last loop of `Evaluate`: suspects are judged, and forgotten after some time. -/
def judgeSuspects (suspects : OrderedMap (List ℕ) SSuspect) : OrderedMap (List ℕ) SSuspect :=
  (suspects.mapEntries fun _ Suspect => Suspect.judge moment.dropRatio).filter
    fun _ Suspect => ¬Suspect.uClearTime < moment.uNow

/-- `CCorruptionLogger::Evaluate`. -/
def evaluate (logger : Logger) : Option Logger :=
  ((applyResults h s logger.records).bind fun records =>
    countRecords h moment { logger with records := records }).map fun logger =>
      { logger with suspects := judgeSuspects moment logger.suspects }

/-- `CCorruptionLogger::IsDropped`. -/
def isDropped (ID : List UInt8) (logger : Logger) : Bool :=
  ((logger.suspects.get (fold ID)).map SSuspect.uDropped).getD false

end Code

/-- The result that a block has, if it has one. -/
def blockResult (h : CFileHashEx) (s : Status) (i : ℕ) : EStatus :=
  if bitOf s i then EStatus.eVerified
  else if testRange s.corruptionSet (blockBegin h i, blockEnd h i) then EStatus.eCorrupted
  else EStatus.eUnknown

section Blocks

variable {h : CFileHashEx} (hs : SizesOk h)

include hs

theorem in_block_iff (hpos : 0 < h.totalSize) {x : ℕ} (hx : x < h.totalSize) (i : ℕ) :
    (blockBegin h i ≤ x ∧ x < blockEnd h i) ↔ i = floorIndex h x := by
  have hle := le_floorIndex_iff hs hpos x i
  have hlt := le_floorIndex_iff hs hpos x (i + 1)
  rw [blockEnd_eq hs hpos]
  omega

theorem floorIndex_lt_count (hpos : 0 < h.totalSize) {x : ℕ} (hx : x < h.totalSize) :
    floorIndex h x < getStatusCount h := by
  have hin := (in_block_iff hs hpos hx (floorIndex h x)).mpr rfl
  rw [lt_getStatusCount_iff hs hpos]
  omega

theorem totalSize_lt : h.totalSize < 2 ^ 64 := by
  have hsum := hs.sum
  have hpart := uPartSize_pos hs
  omega

/-- The result of a block is written over it. -/
theorem applyBlock_eq {s : Status} (hsized : Sized h s) (hpos : 0 < h.totalSize) {i : ℕ}
    (hi : i < getStatusCount h) (acc : CRangeMap SRecord × SRecord) :
    applyBlock h s acc i = some (if blockResult h s i = EStatus.eUnknown then acc
      else (acc.1.setRange recordMapOps (blockBegin h i) (blockEnd h i)
        ⟨blockResult h s i, acc.2.ID⟩ ESet.eSet, ⟨blockResult h s i, acc.2.ID⟩)) := by
  obtain ⟨hfirst, hsecond⟩ := indexOffset_own hs hpos hi
  have hbit : testBit (resized h s) i = some (bitOf s i) := by
    have hlength := resized_length hsized
    rw [testBit, ← resized_getD h s i, List.getD_eq_getElem?_getD,
      List.getElem?_eq_getElem (by omega), Option.getD_some]
  rw [applyBlock, hbit, hfirst, hsecond, Option.map_some, blockResult]
  cases bitOf s i with
  | true => rfl
  | false =>
    rw [if_neg Bool.false_ne_true, if_neg Bool.false_ne_true]
    cases testRange s.corruptionSet (blockBegin h i, blockEnd h i) with
    | true => rfl
    | false => rfl

/-- The results of some blocks are written over them, with one contributor. -/
theorem applyBlocks_spec {s : Status} (hsized : Sized h s) (hpos : 0 < h.totalSize) (is : List ℕ)
    (his : ∀ i ∈ is, i < getStatusCount h) (acc : CRangeMap SRecord × SRecord)
    (hcan : Canonical recordMapOps h.totalSize acc.1) : ∃ acc', is.foldlM (applyBlock h s) acc = some acc' ∧
      Canonical recordMapOps h.totalSize acc'.1 ∧ Later acc.1 acc'.1 ∧
      ∀ x < h.totalSize, stateAt recordMapOps acc'.1 x =
        if floorIndex h x ∈ is ∧ blockResult h s (floorIndex h x) ≠ EStatus.eUnknown then
          ⟨blockResult h s (floorIndex h x), acc.2.ID⟩ else stateAt recordMapOps acc.1 x := by
  induction is generalizing acc with
  | nil =>
    refine ⟨acc, rfl, hcan, later_refl _, fun x _ => ?_⟩
    rw [if_neg fun hc => List.not_mem_nil hc.1]
  | cons i rest ih =>
    have hi := his i List.mem_cons_self
    have hrest : ∀ j ∈ rest, j < getStatusCount h := fun j hj => his j (List.mem_cons_of_mem _ hj)
    rw [List.foldlM_cons, applyBlock_eq hs hsized hpos hi]
    by_cases hnone : blockResult h s i = EStatus.eUnknown
    · obtain ⟨acc', hfold, hcan', hlater, hstate⟩ := ih hrest acc hcan
      rw [if_pos hnone]
      refine ⟨acc', hfold, hcan', hlater, fun x hx => ?_⟩
      rw [hstate x hx]
      refine if_congr (and_congr_left fun hresult => ?_) rfl rfl
      rw [List.mem_cons, or_iff_right]
      rintro rfl
      exact hresult hnone
    · obtain ⟨hlt, hle⟩ := own_bounds hs hpos hi
      rw [if_neg hnone]
      obtain ⟨acc', hfold, hcan', hlater, hstate⟩ := ih hrest
        (acc.1.setRange recordMapOps (blockBegin h i) (blockEnd h i)
          ⟨blockResult h s i, acc.2.ID⟩ ESet.eSet, ⟨blockResult h s i, acc.2.ID⟩)
        (setRange_canonical_of_le hcan (totalSize_lt hs) hlt.le hle _ _)
      refine ⟨acc', hfold, hcan', (later_setRange _ _ _ _ _).trans hlater, fun x hx => ?_⟩
      have hset : stateAt recordMapOps (acc.1.setRange recordMapOps (blockBegin h i) (blockEnd h i)
          ⟨blockResult h s i, acc.2.ID⟩ ESet.eSet) x =
          if i = floorIndex h x then ⟨blockResult h s i, acc.2.ID⟩
          else stateAt recordMapOps acc.1 x := by
        rw [stateAt_setRange_of_le hcan (totalSize_lt hs) hlt.le hle]
        exact if_congr (in_block_iff hs hpos hx i) rfl rfl
      rw [hstate x hx]
      dsimp only
      rw [hset]
      by_cases hmem : floorIndex h x ∈ rest ∧ blockResult h s (floorIndex h x) ≠ EStatus.eUnknown
      · rw [if_pos hmem, if_pos ⟨List.mem_cons_of_mem _ hmem.1, hmem.2⟩]
      · rw [if_neg hmem]
        by_cases heq : i = floorIndex h x
        · rw [if_pos heq, if_pos ⟨heq ▸ List.mem_cons_self, heq ▸ hnone⟩, ← heq]
        · rw [if_neg heq, if_neg]
          rintro ⟨hin, hresult⟩
          exact (List.mem_cons.mp hin).elim (fun he => heq he.symm) fun hr => hmem ⟨hr, hresult⟩

end Blocks

/-- Between evaluations a byte has a record without a result, or none. -/
def Fresh (r : SRecord) : Prop := r = recordMapOps.default ∨ r.eStatus = EStatus.eUnknown

/-- Each block with a result that has a record was recorded completely, by one contributor. -/
def OneSender (h : CFileHashEx) (s : Status) (before : ℕ → SRecord) : Prop :=
  ∀ x < h.totalSize, ∀ y < h.totalSize, floorIndex h x = floorIndex h y →
    blockResult h s (floorIndex h x) ≠ EStatus.eUnknown → (before x).eStatus = EStatus.eUnknown →
    (before y).eStatus = EStatus.eUnknown ∧ fold (before y).ID = fold (before x).ID

/-- A byte is due to get the result of its block. -/
def Due (h : CFileHashEx) (s : Status) (before : ℕ → SRecord) (x : ℕ) : Prop :=
  blockResult h s (floorIndex h x) ≠ EStatus.eUnknown ∧ (before x).eStatus = EStatus.eUnknown

/-- The state of a byte when the results were written over the blocks that begin before an offset. -/
structure AppliedTo (h : CFileHashEx) (s : Status) (before : ℕ → SRecord) (cur x : ℕ)
    (now : SRecord) : Prop where
  /-- A byte that is due has the result, and its contributor. -/
  done : Due h s before x → blockBegin h (floorIndex h x) < cur →
    now.eStatus = blockResult h s (floorIndex h x) ∧ fold now.ID = fold (before x).ID
  /-- Another byte is as before. -/
  kept : ¬(Due h s before x ∧ blockBegin h (floorIndex h x) < cur) → now = before x

section Apply

variable {h : CFileHashEx} (hs : SizesOk h) (hpos : 0 < h.totalSize) {s : Status}
variable (hsized : Sized h s) {before : ℕ → SRecord} (hone : OneSender h s before)

include hs hpos hsized hone

/-- The first loop of `Evaluate` goes on from block to block. -/
theorem applyRange_bodyOk : BodyOk recordMapOps h.totalSize id recordMapOps.default (fun _ => true)
    (applyRange h s) 0 minusOne fun cur records => Canonical recordMapOps h.totalSize records ∧
      ∀ x < h.totalSize, AppliedTo h s before cur x (stateAt recordMapOps records x) := by
  rintro records it ⟨hcan, happlied⟩ - hat
  have hlt := hat.lt
  have hend := hat.uEnd_le
  have hsame : ∀ x, it.uBegin ≤ x → x < it.uEnd → stateAt recordMapOps records x = it.uState := hat.same
  -- a block that begins in the range is still as before there
  have hbegin : ∀ x < h.totalSize, it.uBegin ≤ blockBegin h (floorIndex h x) →
      blockBegin h (floorIndex h x) < it.uEnd → before (blockBegin h (floorIndex h x)) = it.uState ∧
        floorIndex h (blockBegin h (floorIndex h x)) = floorIndex h x := by
    intro x hx hfrom hto
    have hin := (in_block_iff hs hpos hx (floorIndex h x)).mpr rfl
    have hblock := (in_block_iff hs hpos (show blockBegin h (floorIndex h x) < h.totalSize by omega)
      (floorIndex h x)).mp (by omega)
    have hkept := (happlied (blockBegin h (floorIndex h x)) (by omega)).kept fun hc => by
      rw [← hblock] at hc
      omega
    exact ⟨hkept.symm.trans (hsame _ hfrom hto), hblock.symm⟩
  rw [applyRange]
  by_cases hunknown : it.uState.eStatus ≠ EStatus.eUnknown
  · rw [if_pos hunknown]
    refine ⟨records, it.uEnd, rfl, hlt, le_rfl, later_refl _, hcan, fun x hx => ⟨fun hdue hreach => ?_,
      fun hnot => (happlied x hx).kept fun hc => hnot ⟨hc.1, by omega⟩⟩⟩
    by_cases hfrom : it.uBegin ≤ blockBegin h (floorIndex h x)
    · obtain ⟨hstate, hblock⟩ := hbegin x hx hfrom hreach
      have hin := (in_block_iff hs hpos hx (floorIndex h x)).mpr rfl
      have hfirst := (hone x hx (blockBegin h (floorIndex h x)) (by omega) hblock.symm hdue.1 hdue.2).1
      rw [hstate] at hfirst
      exact absurd hfirst hunknown
    · exact (happlied x hx).done hdue (by omega)
  · rw [not_not] at hunknown
    rw [if_neg (not_not.mpr hunknown)]
    have hmem : ∀ i, i ∈ indices (indexRange h it.uBegin it.uEnd true) ↔
        blockBegin h i < it.uEnd ∧ it.uBegin < blockBegin h (i + 1) := by
      intro i
      rw [mem_indices_iff, mem_covering_iff hs hpos (by omega) hend]
    obtain ⟨acc, hfold, hcan', hlater, hstate⟩ := applyBlocks_spec hs hsized hpos
      (indices (indexRange h it.uBegin it.uEnd true))
      (fun i hi => lt_getStatusCount_of_mem hs hlt hend ((mem_indices_iff _ i).mp hi).2)
      (records, it.uState) hcan
    -- a block with a result that begins before the range has it already
    have hinside : ∀ i ∈ indices (indexRange h it.uBegin it.uEnd true),
        blockResult h s i ≠ EStatus.eUnknown → it.uBegin ≤ blockBegin h i := by
      intro i hi hresult
      by_contra hbefore
      have hblock := (in_block_iff hs hpos (show it.uBegin < h.totalSize by omega) i).mp
        ⟨by omega, by rw [blockEnd_eq hs hpos]; have := (hmem i).mp hi; omega⟩
      have hnow := hsame it.uBegin le_rfl hlt
      by_cases hdue : Due h s before it.uBegin
      · have hdone := ((happlied it.uBegin (by omega)).done hdue (by rw [← hblock]; omega)).1
        rw [hnow, hunknown, ← hblock] at hdone
        exact hresult hdone.symm
      · have hkept := (happlied it.uBegin (by omega)).kept fun hc => hdue hc.1
        refine hdue ⟨by rw [← hblock]; exact hresult, ?_⟩
        rw [← hkept, hnow, hunknown]
    refine ⟨acc.1, it.uEnd, by rw [hfold]; rfl, hlt, le_rfl, hlater, hcan', fun x hx =>
      ⟨fun hdue hreach => ?_, fun hnot => ?_⟩⟩
    · have hin := (in_block_iff hs hpos hx (floorIndex h x)).mpr rfl
      by_cases hi : floorIndex h x ∈ indices (indexRange h it.uBegin it.uEnd true)
      · obtain ⟨hstart, hblock⟩ := hbegin x hx (hinside _ hi hdue.1) hreach
        have hfirst := (hone x hx (blockBegin h (floorIndex h x)) (by omega) hblock.symm hdue.1 hdue.2).2
        rw [hstate x hx, if_pos ⟨hi, hdue.1⟩]
        rw [hstart] at hfirst
        exact ⟨rfl, hfirst⟩
      · have hpast := mt (hmem _).mpr hi
        have hend' := blockEnd_eq hs hpos (floorIndex h x)
        rw [hstate x hx, if_neg fun hc => hi hc.1]
        exact (happlied x hx).done hdue (by omega)
    · have hin := (in_block_iff hs hpos hx (floorIndex h x)).mpr rfl
      rw [hstate x hx]
      split_ifs with hi
      · obtain ⟨hreach, -⟩ := (hmem _).mp hi.1
        obtain ⟨hstart, hblock⟩ := hbegin x hx (hinside _ hi.1 hi.2) hreach
        have hrecord := (hone (blockBegin h (floorIndex h x)) (by omega) x hx hblock
          (by rw [hblock]; exact hi.2) (by rw [hstart]; exact hunknown)).1
        exact absurd ⟨⟨hi.2, hrecord⟩, hreach⟩ hnot
      · exact (happlied x hx).kept fun hc => hnot ⟨hc.1, by omega⟩

/-- After the first loop each byte that is due has the result of its block, and its contributor. -/
theorem applyResults_spec {records : CRangeMap SRecord} (hcan : Canonical recordMapOps h.totalSize records)
    (hbefore : ∀ x < h.totalSize, stateAt recordMapOps records x = before x) :
    ∃ records', applyResults h s records = some records' ∧
      Canonical recordMapOps h.totalSize records' ∧ ∀ x < h.totalSize,
        (Due h s before x → (stateAt recordMapOps records' x).eStatus = blockResult h s (floorIndex h x) ∧
            fold (stateAt recordMapOps records' x).ID = fold (before x).ID) ∧
        (¬Due h s before x → stateAt recordMapOps records' x = before x) := by
  have hsize := totalSize_lt hs
  obtain ⟨records', cur, hrun, ⟨hcan', happlied⟩, hcur⟩ := forRanges_spec hsize
    (show 0 < minusOne by decide) (by decide) (fun _ _ hinv => hinv.1)
    (applyRange_bodyOk hs hpos hsized hone)
    (show Canonical recordMapOps h.totalSize records ∧ _ from
      ⟨hcan, fun x hx => ⟨fun _ hc => absurd hc (Nat.not_lt_zero _), fun _ => hbefore x hx⟩⟩)
  have hend := hcur rfl
  have hmax : h.totalSize ≤ minusOne := by
    rw [minusOne]
    omega
  refine ⟨records', hrun, hcan', fun x hx => ⟨fun hdue => ?_, fun hnot => ?_⟩⟩
  · have hin := (in_block_iff hs hpos hx (floorIndex h x)).mpr rfl
    exact (happlied x hx).done hdue (by omega)
  · exact (happlied x hx).kept fun hc => hnot hc.1

end Apply

section Bytes

variable {p : ℕ → Prop} [DecidablePred p] {a b : ℕ}

theorem count_of_forall (hle : a ≤ b) (hall : ∀ x, a ≤ x → x < b → p x) : Nat.count p b = Nat.count p a + (b - a) := by
  induction b, hle using Nat.le_induction with
  | base => rw [Nat.sub_self, Nat.add_zero]
  | succ b hab ih =>
    rw [Nat.count_succ, if_pos (hall b hab (Nat.lt_succ_self b)), ih fun x h1 h2 => hall x h1 (Nat.lt_succ_of_lt h2)]
    omega

theorem count_of_none (hle : a ≤ b) (hnone : ∀ x, a ≤ x → x < b → ¬p x) : Nat.count p b = Nat.count p a := by
  induction b, hle using Nat.le_induction with
  | base => rfl
  | succ b hab ih =>
    rw [Nat.count_succ, if_neg (hnone b hab (Nat.lt_succ_self b)),
      ih fun x h1 h2 => hnone x h1 (Nat.lt_succ_of_lt h2), Nat.add_zero]

/-- As many bytes of a range are counted, if they are the same. -/
theorem count_add_congr {q : ℕ → Prop} [DecidablePred q] (hle : a ≤ b) (hiff : ∀ x, a ≤ x → x < b → (p x ↔ q x)) :
    Nat.count p b + Nat.count q a = Nat.count q b + Nat.count p a := by
  induction b, hle using Nat.le_induction with
  | base => exact Nat.add_comm _ _
  | succ b hab ih =>
    have hrest := ih fun x h1 h2 => hiff x h1 (Nat.lt_succ_of_lt h2)
    have hlast : (if p b then 1 else 0) = if q b then 1 else 0 :=
      if_congr (hiff b hab (Nat.lt_succ_self b)) rfl rfl
    rw [Nat.count_succ, Nat.count_succ, hlast]
    omega

end Bytes

section Count

/-- A contributor has an entry after a number of bytes, if there were any. -/
def touched (n : ℕ) (entry : Option SSuspect) : Option SSuspect :=
  if n = 0 then entry else some (entry.getD SSuspect.new)

/-- The bytes of a contributor after a number of them. -/
def summed (n : ℕ) (entry : Option (BitVec 32)) : Option (BitVec 32) :=
  if n = 0 then entry else some (entry.getD 0 + BitVec.ofNat 32 n)

/-- The ranges of a block are counted for their contributors. -/
theorem foldl_contribute {state : ℕ → SRecord} (spans : List (Span SRecord)) {a b : ℕ} (htiles : Tiles a b spans)
    (hsame : ∀ span ∈ spans, ∀ x, span.Covers x → state x = span.value)
    (acc : OrderedMap (List ℕ) SSuspect × OrderedMap (List ℕ) (BitVec 32)) (t : List ℕ) (n : ℕ)
    (hn : Nat.count (fun x => fold (state x).ID = t) b = Nat.count (fun x => fold (state x).ID = t) a + n) :
    (spans.foldl contribute acc).1.get t = touched n (acc.1.get t) ∧
      (spans.foldl contribute acc).2.get t = summed n (acc.2.get t) := by
  induction spans generalizing a acc n with
  | nil =>
    have hzero : n = 0 := by
      rw [htiles] at hn
      omega
    rw [touched, summed, if_pos hzero, if_pos hzero]
    exact ⟨rfl, rfl⟩
  | cons span rest ih =>
    obtain ⟨rfl, hlt, hrest⟩ := htiles
    have hspan := hsame span List.mem_cons_self
    rw [List.foldl_cons]
    by_cases ht : fold span.value.ID = t
    · have hfirst := count_of_forall (p := fun x => fold (state x).ID = t) hlt.le fun x h1 h2 => by
        rw [hspan x ⟨h1, h2⟩]
        exact ht
      obtain ⟨hsuspect, htemp⟩ := ih hrest (fun other hm => hsame other (List.mem_cons_of_mem _ hm))
        (contribute acc span) (n - (span.last - span.first)) (by
          have hmono := Nat.count_monotone (fun x => fold (state x).ID = t) hrest.le
          omega)
      have hmono := Nat.count_monotone (fun x => fold (state x).ID = t) hrest.le
      have hsum : n = (span.last - span.first) + (n - (span.last - span.first)) := by omega
      have hne : n ≠ 0 := by omega
      rw [hsuspect, htemp, contribute]
      dsimp only
      rw [ht, OrderedMap.get_insert_self, OrderedMap.get_insert_self, touched, touched, summed, summed,
        if_neg hne, if_neg hne]
      split_ifs with hlast
      · refine ⟨rfl, ?_⟩
        rw [hlast, Nat.add_zero] at hsum
        rw [← hsum]
      · refine ⟨rfl, ?_⟩
        rw [Option.getD_some, BitVec.add_assoc, ← BitVec.ofNat_add, ← hsum]
    · have hfirst := count_of_none (p := fun x => fold (state x).ID = t) hlt.le fun x h1 h2 => by
        rw [hspan x ⟨h1, h2⟩]
        exact ht
      obtain ⟨hsuspect, htemp⟩ := ih hrest (fun other hm => hsame other (List.mem_cons_of_mem _ hm))
        (contribute acc span) n (by omega)
      rw [hsuspect, htemp, contribute]
      dsimp only
      rw [OrderedMap.get_insert_of_ne _ _ (Ne.symm ht), OrderedMap.get_insert_of_ne _ _ (Ne.symm ht)]
      exact ⟨rfl, rfl⟩

/-- An entry after a number of bytes with a result, if there were any. -/
def counted (eStatus : EStatus) (uClearTime n : ℕ) (entry : Option SSuspect) : Option SSuspect :=
  if n = 0 then entry
  else some ((entry.getD SSuspect.new).count eStatus uClearTime (BitVec.ofNat 64 n))

theorem signExtend_ofNat {n : ℕ} (hn : n < 2 ^ 31) : (BitVec.ofNat 32 n).signExtend 64 = BitVec.ofNat 64 n := by
  have hsmall : (BitVec.ofNat 32 n).toNat = n := by
    rw [BitVec.toNat_ofNat]
    exact Nat.mod_eq_of_lt (by omega)
  have hmsb : (BitVec.ofNat 32 n).msb = false := by
    rw [BitVec.msb_eq_decide, hsmall]
    exact decide_eq_false (by omega)
  refine BitVec.eq_of_toNat_eq ?_
  rw [BitVec.signExtend_eq_setWidth_of_msb_false hmsb, BitVec.toNat_setWidth, hsmall, BitVec.toNat_ofNat]

/-- The sums of a block are counted for their contributors. -/
theorem get_countTemp (eStatus : EStatus) (uClearTime : ℕ) (suspects : OrderedMap (List ℕ) SSuspect)
    (Temp : OrderedMap (List ℕ) (BitVec 32)) (t : List ℕ) : (Temp.entries.foldl (fun suspects I => suspects.insert I.1
      (((suspects.get I.1).getD SSuspect.new).count eStatus uClearTime (I.2.signExtend 64))) suspects).get t =
      (Temp.get t).elim (suspects.get t) fun v =>
        some (((suspects.get t).getD SSuspect.new).count eStatus uClearTime (v.signExtend 64)) := by
  refine OrderedMap.get_foldl_entries (g := fun entry (v : BitVec 32) =>
    some ((entry.getD SSuspect.new).count eStatus uClearTime (v.signExtend 64)))
    (fun m e k => ?_) suspects Temp t
  by_cases hk : k = e.1
  · rw [if_pos hk, hk, OrderedMap.get_insert_self]
  · rw [if_neg hk, OrderedMap.get_insert_of_ne _ _ hk]

variable {h : CFileHashEx} (hs : SizesOk h) (hpos : 0 < h.totalSize) {records : CRangeMap SRecord}
variable (hcan : Canonical recordMapOps h.totalSize records) (moment : Moment)

include hs hpos hcan

/-- The bytes of a block are counted for their contributors. -/
theorem get_countBlock {i : ℕ} (hi : i < getStatusCount h)
    (hlength : blockEnd h i - blockBegin h i < 2 ^ 31) (eStatus : EStatus)
    (suspects : OrderedMap (List ℕ) SSuspect) (t : List ℕ) (n : ℕ)
    (hn : Nat.count (fun x => fold (stateAt recordMapOps records x).ID = t) (blockEnd h i) =
      Nat.count (fun x => fold (stateAt recordMapOps records x).ID = t) (blockBegin h i) + n) :
    (countBlock h moment eStatus records suspects i).get t = counted eStatus moment.uClearTime n (suspects.get t) := by
  obtain ⟨hlt, hle⟩ := own_bounds hs hpos hi
  obtain ⟨hfirst, hsecond⟩ := indexOffset_own hs hpos hi
  have hsize := totalSize_lt hs
  have hcollected := rangesOf_collected hcan hsize hlt (show blockEnd h i < 2 ^ 64 by omega) recordMapOps.default
  have htiles := hcollected.tiles (by omega)
  rw [min_eq_left hle] at htiles
  have hsame : ∀ span ∈ rangesOf recordMapOps records (blockBegin h i) (blockEnd h i)
      recordMapOps.default, ∀ x, span.Covers x → stateAt recordMapOps records x = span.value := by
    intro span hm x hx
    have hseen := hcollected.same span hm x hx
    have hbound := htiles.bounds hm
    rw [seen, hcan.valueAt_eq_stateAt (by have := hx.2; omega), Option.map_some, Option.some_inj] at hseen
    exact hseen
  have hshort : n < 2 ^ 31 := by
    have hadd := Nat.count_add (fun x => fold (stateAt recordMapOps records x).ID = t)
      (blockBegin h i) (blockEnd h i - blockBegin h i)
    have hcount := Nat.count_le (n := blockEnd h i - blockBegin h i)
      (p := fun k => fold (stateAt recordMapOps records (blockBegin h i + k)).ID = t)
    rw [Nat.add_sub_cancel' hlt.le] at hadd
    omega
  obtain ⟨hsuspect, htemp⟩ := foldl_contribute _ htiles hsame (suspects, OrderedMap.empty) t n hn
  rw [countBlock, hfirst, hsecond]
  rw [get_countTemp, hsuspect, htemp, summed, touched, counted]
  split_ifs with hzero
  · rfl
  · have hone : (0 : BitVec 32) + BitVec.ofNat 32 n = BitVec.ofNat 32 n := BitVec.zero_add _
    rw [OrderedMap.get_empty, Option.getD_none, hone, Option.elim_some, Option.getD_some, signExtend_ofNat hshort]

end Count

section Entries

/-- Bytes with the same result are counted together. -/
theorem counted_add (eStatus : EStatus) (uClearTime n m : ℕ) (entry : Option SSuspect) :
    counted eStatus uClearTime m (counted eStatus uClearTime n entry) = counted eStatus uClearTime (n + m) entry := by
  rw [counted, counted, counted]
  by_cases hm : m = 0
  · rw [if_pos hm, hm, Nat.add_zero]
  · have hne : n + m ≠ 0 := by omega
    rw [if_neg hm, if_neg hne]
    split_ifs with hn
    · rw [hn, Nat.zero_add]
    · rw [Option.getD_some, BitVec.ofNat_add, SSuspect.count, SSuspect.count, SSuspect.count]
      split_ifs <;> rw [BitVec.add_assoc]

theorem counted_comm (uClearTime n m : ℕ) (entry : Option SSuspect) :
    counted EStatus.eVerified uClearTime n (counted EStatus.eCorrupted uClearTime m entry) =
      counted EStatus.eCorrupted uClearTime m (counted EStatus.eVerified uClearTime n entry) := by
  rw [counted, counted, counted, counted]
  split_ifs <;> rfl

/-- The entry of a contributor after the bytes before an offset were counted. -/
def entryAfter (state : ℕ → SRecord) (uClearTime : ℕ) (t : List ℕ) (cur : ℕ)
    (entry : Option SSuspect) : Option SSuspect :=
  counted EStatus.eCorrupted uClearTime
    (Nat.count (fun x => (state x).eStatus = EStatus.eCorrupted ∧ fold (state x).ID = t) cur)
    (counted EStatus.eVerified uClearTime
      (Nat.count (fun x => (state x).eStatus = EStatus.eVerified ∧ fold (state x).ID = t) cur) entry)

/-- The bytes of a range with one result are counted behind those before it. -/
theorem entryAfter_range {state : ℕ → SRecord} {eStatus : EStatus} {a b : ℕ} (hle : a ≤ b)
    (hsame : ∀ x, a ≤ x → x < b → (state x).eStatus = eStatus) (uClearTime : ℕ) (t : List ℕ) (n : ℕ)
    (hn : Nat.count (fun x => fold (state x).ID = t) b = Nat.count (fun x => fold (state x).ID = t) a + n)
    (entry : Option SSuspect) :
    entryAfter state uClearTime t b entry = if eStatus = EStatus.eVerified ∨ eStatus = EStatus.eCorrupted then
        counted eStatus uClearTime n (entryAfter state uClearTime t a entry)
      else entryAfter state uClearTime t a entry := by
  have hin : ∀ k, k = eStatus → Nat.count (fun x => (state x).eStatus = k ∧ fold (state x).ID = t) b =
        Nat.count (fun x => (state x).eStatus = k ∧ fold (state x).ID = t) a + n := by
    intro k hk
    have hcongr := count_add_congr (p := fun x => (state x).eStatus = k ∧ fold (state x).ID = t)
      (q := fun x => fold (state x).ID = t) hle fun x h1 h2 => by
        rw [hsame x h1 h2]
        exact and_iff_right hk.symm
    omega
  have hout : ∀ k, k ≠ eStatus → Nat.count (fun x => (state x).eStatus = k ∧ fold (state x).ID = t) b =
        Nat.count (fun x => (state x).eStatus = k ∧ fold (state x).ID = t) a := by
    intro k hk
    exact count_of_none hle fun x h1 h2 hc => hk (hc.1.symm.trans (hsame x h1 h2))
  rw [entryAfter, entryAfter]
  by_cases hverified : EStatus.eVerified = eStatus
  · rw [if_pos (Or.inl hverified.symm), hin _ hverified,
      hout _ fun hc => EStatus.noConfusion (hverified.trans hc.symm), ← hverified, counted_comm,
      counted_add]
  · by_cases hcorrupted : EStatus.eCorrupted = eStatus
    · rw [if_pos (Or.inr hcorrupted.symm), hin _ hcorrupted, hout _ hverified, ← hcorrupted, counted_add]
    · rw [if_neg fun hc => hc.elim (fun hv => hverified hv.symm) fun hk => hcorrupted hk.symm,
        hout _ hverified, hout _ hcorrupted]

end Entries

section Ranges

variable {h : CFileHashEx} (hs : SizesOk h) (hpos : 0 < h.totalSize)

include hs hpos

/-- The bytes of some blocks in a row are counted for their contributors. -/
theorem get_foldl_countBlock {records : CRangeMap SRecord}
    (hcan : Canonical recordMapOps h.totalSize records) (moment : Moment) (eStatus : EStatus)
    (len i : ℕ) (hcount : i + len ≤ getStatusCount h)
    (hshort : ∀ j, i ≤ j → j < i + len → blockEnd h j - blockBegin h j < 2 ^ 31)
    (suspects : OrderedMap (List ℕ) SSuspect) (t : List ℕ) (n : ℕ)
    (hn : Nat.count (fun x => fold (stateAt recordMapOps records x).ID = t) (min (blockBegin h (i + len)) h.totalSize) =
      Nat.count (fun x => fold (stateAt recordMapOps records x).ID = t) (min (blockBegin h i) h.totalSize) + n) :
    ((List.range' i len).foldl (countBlock h moment eStatus records) suspects).get t =
      counted eStatus moment.uClearTime n (suspects.get t) := by
  induction len generalizing i suspects n with
  | zero =>
    rw [Nat.add_zero] at hn
    have hzero : n = 0 := by omega
    rw [List.range'_zero, List.foldl_nil, counted, if_pos hzero]
  | succ len ih =>
    have hi : i < getStatusCount h := by omega
    have hbegin := (lt_getStatusCount_iff hs hpos i).mp hi
    have hend := blockEnd_eq hs hpos i
    have hlt := (own_bounds hs hpos hi).1
    have hnext : i + 1 + len = i + (len + 1) := by omega
    have hmono := Nat.count_monotone (fun x => fold (stateAt recordMapOps records x).ID = t)
    have hfirst := hmono hlt.le
    have hedge : min (blockBegin h (i + 1)) h.totalSize ≤ min (blockBegin h (i + (len + 1))) h.totalSize := by
      have hlater := blockBegin_lt_iff hs hpos (i + (len + 1)) (i + 1)
      omega
    have hrest := hmono hedge
    have hstart : min (blockBegin h i) h.totalSize = blockBegin h i := min_eq_left hbegin.le
    rw [hstart] at hn
    rw [← hend] at hrest
    rw [List.range'_succ, List.foldl_cons, ih (i + 1) (by omega) (fun j h1 h2 => hshort j (by omega)
      (by omega)) _ (Nat.count (fun x => fold (stateAt recordMapOps records x).ID = t)
        (min (blockBegin h (i + (len + 1))) h.totalSize) -
        Nat.count (fun x => fold (stateAt recordMapOps records x).ID = t) (blockEnd h i))
      (by rw [hnext, ← hend]; omega),
      get_countBlock hs hpos hcan moment hi (hshort i le_rfl (by omega)) eStatus suspects t
        (Nat.count (fun x => fold (stateAt recordMapOps records x).ID = t) (blockEnd h i) -
          Nat.count (fun x => fold (stateAt recordMapOps records x).ID = t) (blockBegin h i))
        (by omega), counted_add]
    congr 1
    omega

theorem indexRange_blocks {i j : ℕ} (hle : i ≤ j) (hj : j < getStatusCount h) :
    indexRange h (blockBegin h i) (blockEnd h j) false = (i, j + 1) := by
  have hbegin := (lt_getStatusCount_iff hs hpos j).mp hj
  obtain ⟨hlt, hend⟩ := own_bounds hs hpos hj
  have hfirst := blockBegin_lt_iff hs hpos j i
  refine range_eq_of_mem (Nat.lt_succ_of_le hle) fun k => ?_
  have hik := blockBegin_lt_iff hs hpos k i
  have hjk := blockBegin_lt_iff hs hpos j k
  have hnext := blockBegin_lt_iff hs hpos (j + 1) (k + 1)
  have hlast := blockBegin_lt_iff hs hpos k (j + 1)
  have hsucc := blockBegin_lt_succ hs hpos k
  rw [mem_inside_iff hs (by omega) hend, Inside, blockEnd_eq hs hpos, blockEnd_eq hs hpos]
  omega

end Ranges

/-- A record with a result. -/
def Decided (r : SRecord) : Prop := r.eStatus = EStatus.eVerified ∨ r.eStatus = EStatus.eCorrupted

/-- What the first loop leaves: a block has one result or none, and is counted in 32 bits. -/
structure Settled (h : CFileHashEx) (state : ℕ → SRecord) : Prop where
  /-- There are no other states. -/
  status : ∀ x < h.totalSize,
    ((state x).eStatus = EStatus.eNone ∨ (state x).eStatus = EStatus.eUnknown) ∨ Decided (state x)
  /-- A block with a result has it on all bytes. -/
  uniform : ∀ x < h.totalSize, ∀ y < h.totalSize, floorIndex h x = floorIndex h y →
    Decided (state x) → (state y).eStatus = (state x).eStatus
  /-- Such a block is not too long. -/
  short : ∀ x < h.totalSize, Decided (state x) → blockEnd h (floorIndex h x) - blockBegin h (floorIndex h x) < 2 ^ 31

/-- What is counted up to an offset. -/
structure CountedTo (h : CFileHashEx) (moment : Moment) (state : ℕ → SRecord)
    (suspects : OrderedMap (List ℕ) SSuspect) (cur : ℕ) (logger : Logger) : Prop where
  /-- The records are in order. -/
  canonical : Canonical recordMapOps h.totalSize logger.records
  /-- The offset is in the file. -/
  le : cur ≤ h.totalSize
  /-- Records with a result are cleared before the offset, and not behind it. -/
  cleared : ∀ x < h.totalSize, x < cur → Decided (state x) →
    stateAt recordMapOps logger.records x = recordMapOps.default
  /-- All others are as before. -/
  kept : ∀ x < h.totalSize, ¬(x < cur ∧ Decided (state x)) → stateAt recordMapOps logger.records x = state x
  /-- The offset is not in a block with a result. -/
  aligned : ∀ x < h.totalSize, Decided (state x) → blockBegin h (floorIndex h x) < cur →
    blockEnd h (floorIndex h x) ≤ cur
  /-- The bytes before the offset are counted. -/
  entries : ∀ t, logger.suspects.get t = entryAfter state moment.uClearTime t cur (suspects.get t)

section Counting

variable {h : CFileHashEx} (hs : SizesOk h) (hpos : 0 < h.totalSize) {state : ℕ → SRecord}
variable (hsettled : Settled h state) {moment : Moment} {suspects : OrderedMap (List ℕ) SSuspect}

include hs hpos hsettled

omit hsettled in
theorem own_le {a b : ℕ} (hlt : a < b) (hb : b ≤ h.totalSize) : floorIndex h a ≤ floorIndex h (b - 1) := by
  have hin := (in_block_iff hs hpos (show a < h.totalSize by omega) (floorIndex h a)).mpr rfl
  rw [le_floorIndex_iff hs hpos]
  omega

omit hsettled in
theorem first_eq {cur : ℕ} {logger : Logger} (hcounted : CountedTo h moment state suspects cur logger)
    (hcur : cur < h.totalSize) (hdecided : Decided (state cur)) : blockBegin h (floorIndex h cur) = cur := by
  have hin := (in_block_iff hs hpos hcur (floorIndex h cur)).mpr rfl
  by_contra hne
  have haligned := hcounted.aligned cur hcur hdecided (by omega)
  omega

/-- A range with a result ends with a block. -/
theorem last_eq {logger : Logger} {it : SIterator SRecord}
    (hcounted : CountedTo h moment state suspects it.uBegin logger)
    (hat : AtWholeRange recordMapOps h.totalSize logger.records ⟨EStatus.eAligned, []⟩ 0 minusOne it)
    (hsame : ∀ x, it.uBegin ≤ x → x < it.uEnd → (state x).eStatus = it.uState.eStatus ∧ Decided (state x)) :
    blockEnd h (floorIndex h (it.uEnd - 1)) = it.uEnd := by
  have hlt := hat.lt
  have hend := hat.uEnd_le
  have hsize := totalSize_lt hs
  have hin := (in_block_iff hs hpos (show it.uEnd - 1 < h.totalSize by omega) (floorIndex h (it.uEnd - 1))).mpr rfl
  have hle := (own_bounds hs hpos (floorIndex_lt_count hs hpos (show it.uEnd - 1 < h.totalSize by omega))).2
  by_contra hne
  have hbehind : it.uEnd < h.totalSize := by omega
  have hblock := (in_block_iff hs hpos hbehind (floorIndex h (it.uEnd - 1))).mp (by omega)
  obtain ⟨hstatus, hdecided⟩ := hsame (it.uEnd - 1) (by omega) (by omega)
  have huniform := hsettled.uniform (it.uEnd - 1) (by omega) it.uEnd hbehind hblock hdecided
  have hbegin := hat.same it.uBegin le_rfl hlt
  refine hat.stop (by rw [minusOne]; omega) ?_
  rw [hcounted.kept it.uEnd hbehind fun hc => by omega, ← hbegin, hcounted.kept it.uBegin (by omega) fun hc => by omega]
  have hfirst := (hsame it.uBegin le_rfl hlt).1
  change (⟨(state it.uEnd).eStatus, []⟩ : SRecord) = ⟨(state it.uBegin).eStatus, []⟩
  rw [huniform, hstatus, hfirst]

/-- The second loop of `Evaluate` goes on from result to result. -/
theorem countRange_bodyOk : BodyOkWhole recordMapOps h.totalSize Logger.records
    ⟨EStatus.eAligned, []⟩ (fun _ => true) (countRange h moment) 0 minusOne (CountedTo h moment state suspects) := by
  rintro logger it hcounted - hat
  have hlt := hat.lt
  have hend := hat.uEnd_le
  have hmasked : ∀ v, CRangeMap.masked recordMapOps ⟨EStatus.eAligned, []⟩ v = ⟨v.eStatus, []⟩ :=
    fun _ => rfl
  have hstate : ∀ x, it.uBegin ≤ x → x < h.totalSize →
      stateAt recordMapOps logger.records x = state x := fun x hx hin =>
    hcounted.kept x hin fun hc => by omega
  have hsame : ∀ x, it.uBegin ≤ x → x < it.uEnd → (state x).eStatus = it.uState.eStatus := by
    intro x h1 h2
    have hseen := hat.same x h1 h2
    rw [hmasked, hstate x h1 (by omega)] at hseen
    rw [← hseen]
  have hentry := fun t n hn => entryAfter_range hlt.le hsame moment.uClearTime t n hn (suspects.get t)
  have hgrow : ∀ t, Nat.count (fun x => fold (state x).ID = t) it.uEnd =
      Nat.count (fun x => fold (state x).ID = t) it.uBegin + (Nat.count (fun x => fold (state x).ID = t) it.uEnd -
          Nat.count (fun x => fold (state x).ID = t) it.uBegin) := fun t => by
    have hmono := Nat.count_monotone (fun x => fold (state x).ID = t) hlt.le
    omega
  rw [countRange]
  by_cases hnone : it.uState.eStatus = EStatus.eNone ∨ it.uState.eStatus = EStatus.eUnknown
  · rw [if_pos hnone]
    have hnot : ¬(it.uState.eStatus = EStatus.eVerified ∨ it.uState.eStatus = EStatus.eCorrupted) := by
      rcases hnone with hc | hc <;> rw [hc] <;> decide
    have hundecided : ∀ x, it.uBegin ≤ x → x < it.uEnd → ¬Decided (state x) := by
      intro x h1 h2 hc
      rw [Decided, hsame x h1 h2] at hc
      exact hnot hc
    refine ⟨logger, it.uEnd, rfl, hlt, le_rfl, later_refl _, hcounted.canonical, hend,
      fun x hx hcur hdecided => ?_, fun x hx hc => ?_, fun x hx hdecided hfrom => ?_, fun t => ?_⟩
    · refine hcounted.cleared x hx ?_ hdecided
      by_contra hge
      exact hundecided x (by omega) hcur hdecided
    · exact hcounted.kept x hx fun hc' => hc ⟨by omega, hc'.2⟩
    · by_cases hbefore : blockBegin h (floorIndex h x) < it.uBegin
      · exact (hcounted.aligned x hx hdecided hbefore).trans hlt.le
      · have hin := (in_block_iff hs hpos hx (floorIndex h x)).mpr rfl
        have hblock := (in_block_iff hs hpos
          (show blockBegin h (floorIndex h x) < h.totalSize by omega) (floorIndex h x)).mp (by omega)
        have hfirst := hsettled.uniform x hx _ (by omega) hblock hdecided
        refine absurd ?_ (hundecided (blockBegin h (floorIndex h x)) (by omega) hfrom)
        rw [Decided, hfirst]
        exact hdecided
    · rw [hcounted.entries, hentry t _ (hgrow t), if_neg hnot]
  · rw [if_neg hnone]
    have hstatus : it.uState.eStatus = EStatus.eVerified ∨ it.uState.eStatus = EStatus.eCorrupted := by
      have hsettledBegin := hsettled.status it.uBegin (by omega)
      rw [Decided, hsame _ le_rfl hlt] at hsettledBegin
      exact hsettledBegin.resolve_left hnone
    have hdecided : ∀ x, it.uBegin ≤ x → x < it.uEnd → Decided (state x) := by
      intro x h1 h2
      rw [Decided, hsame x h1 h2]
      exact hstatus
    have hfirst := first_eq hs hpos hcounted (by omega) (hdecided _ le_rfl hlt)
    have hlast := last_eq hs hpos hsettled hcounted hat (fun x h1 h2 => ⟨hsame x h1 h2, hdecided x h1 h2⟩)
    have hle := own_le hs hpos hlt hend
    have hcount := floorIndex_lt_count hs hpos (show it.uEnd - 1 < h.totalSize by omega)
    have hblocks := indexRange_blocks hs hpos hle hcount
    rw [hfirst, hlast] at hblocks
    have hset := fun x => stateAt_setRange_of_le hcounted.canonical (totalSize_lt hs) hlt.le hend
      recordMapOps.default ESet.eSet x
    refine ⟨_, it.uEnd, rfl, hlt, le_rfl, later_setRange _ _ _ _ _,
      setRange_canonical_of_le hcounted.canonical (totalSize_lt hs) hlt.le hend _ _, hend,
      fun x hx hcur hdec => ?_, fun x hx hnot => ?_, fun x hx hdec hfrom => ?_, fun t => ?_⟩
    · rw [hset]
      split_ifs with hin
      · rfl
      · exact hcounted.cleared x hx (by omega) hdec
    · rw [hset, if_neg fun hin => hnot ⟨hin.2, hdecided x hin.1 hin.2⟩]
      exact hcounted.kept x hx fun hc => hnot ⟨by omega, hc.2⟩
    · by_cases hbefore : blockBegin h (floorIndex h x) < it.uBegin
      · exact (hcounted.aligned x hx hdec hbefore).trans hlt.le
      · have hin := (le_floorIndex_iff hs hpos (it.uEnd - 1) (floorIndex h x)).mpr (by omega)
        have hnext := blockBegin_lt_iff hs hpos (floorIndex h (it.uEnd - 1) + 1) (floorIndex h x + 1)
        rw [blockEnd_eq hs hpos] at hlast ⊢
        omega
    · have hlen : floorIndex h it.uBegin + (floorIndex h (it.uEnd - 1) + 1 - floorIndex h it.uBegin) =
          floorIndex h (it.uEnd - 1) + 1 := by omega
      have hcongr := count_add_congr (p := fun x => fold (stateAt recordMapOps logger.records x).ID = t)
        (q := fun x => fold (state x).ID = t) hlt.le fun x h1 h2 => by rw [hstate x h1 (by omega)]
      have hsum := hgrow t
      have hshort : ∀ k, floorIndex h it.uBegin ≤ k → k < floorIndex h it.uBegin +
          (floorIndex h (it.uEnd - 1) + 1 - floorIndex h it.uBegin) →
          blockEnd h k - blockBegin h k < 2 ^ 31 := by
        intro k h1 h2
        have hfrom := blockBegin_lt_iff hs hpos k (floorIndex h it.uBegin)
        have hto := (le_floorIndex_iff hs hpos (it.uEnd - 1) k).mp (by omega)
        have hk := (lt_getStatusCount_iff hs hpos k).mp (by omega)
        have hbounds := own_bounds hs hpos (show k < getStatusCount h by omega)
        have hblock := (in_block_iff hs hpos hk k).mp ⟨le_rfl, hbounds.1⟩
        have hlimit := hsettled.short _ hk (hdecided _ (by omega) (by omega))
        rw [← hblock] at hlimit
        exact hlimit
      rw [hblocks]
      dsimp only
      rw [indices, get_foldl_countBlock hs hpos hcounted.canonical moment it.uState.eStatus
        (floorIndex h (it.uEnd - 1) + 1 - floorIndex h it.uBegin) (floorIndex h it.uBegin) (by omega)
        hshort logger.suspects t (Nat.count (fun x => fold (state x).ID = t) it.uEnd -
          Nat.count (fun x => fold (state x).ID = t) it.uBegin)
        (by rw [hlen, ← blockEnd_eq hs hpos, hlast, hfirst, min_eq_left (by omega)]; omega),
        hcounted.entries, hentry t _ hsum, if_pos hstatus]

/-- The second loop counts the bytes of all records with a result, and clears these records. -/
theorem countRecords_spec {logger : Logger} (hcan : Canonical recordMapOps h.totalSize logger.records)
    (hstate : ∀ x < h.totalSize, stateAt recordMapOps logger.records x = state x) :
    ∃ logger', countRecords h moment logger = some logger' ∧
      CountedTo h moment state logger.suspects h.totalSize logger' := by
  have hsize := totalSize_lt hs
  have hstart : CountedTo h moment state logger.suspects 0 logger := by
    refine ⟨hcan, Nat.zero_le _, fun x _ hx => absurd hx (Nat.not_lt_zero x), fun x hx _ => hstate x hx,
      fun x _ _ hx => absurd hx (Nat.not_lt_zero _), fun t => ?_⟩
    rw [entryAfter, Nat.count_zero, Nat.count_zero]
    rfl
  obtain ⟨logger', cur, hrun, hcounted, hcur⟩ := forRanges_whole hsize
    (show 0 < minusOne by decide) (by decide) (fun _ _ hinv => hinv.canonical)
    (countRange_bodyOk hs hpos hsettled) hstart
  have hend := hcur rfl
  have hle := hcounted.le
  have hmax : h.totalSize ≤ minusOne := by
    rw [minusOne]
    omega
  have heq : cur = h.totalSize := by omega
  rw [heq] at hcounted
  exact ⟨logger', hrun, hcounted⟩

end Counting

section Ledger

/-- Who sent each byte, and what is held for and against each contributor. -/
structure Ledger where
  /-- The contributor that sent a byte last. -/
  owner : ℕ → Option (List UInt8)
  /-- The account of a contributor. -/
  account : List ℕ → Option SSuspect

/-- Nothing was sent yet. -/
def Ledger.new : Ledger := ⟨fun _ => none, fun _ => none⟩

/-- The bytes of blocks with a result that a contributor sent. -/
def bytesSent (h : CFileHashEx) (s : Status) (owner : ℕ → Option (List UInt8)) (eStatus : EStatus) (t : List ℕ) : ℕ :=
  Nat.count (fun x => blockResult h s (floorIndex h x) = eStatus ∧ (owner x).map fold = some t) h.totalSize

/-- What is done with a logger. -/
inductive Op where
  | record (uBegin uEnd : ℕ) (ID : List UInt8)
  /-- `Evaluate`, with the results of the hash. -/
  | evaluate (s : Status) (moment : Moment)

variable (h : CFileHashEx)

/-- One step of the logger. -/
def step (logger : Logger) : Op → Option Logger
  | .record uBegin uEnd ID => some (record uBegin uEnd ID logger)
  | .evaluate s moment => evaluate h s moment logger

/-- One step of the ledger: a later record replaces an earlier one, and an evaluation charges each
contributor the bytes that it sent. -/
def Ledger.step (ledger : Ledger) : Op → Ledger
  | .record uBegin uEnd ID =>
    { ledger with owner := fun x => if uBegin ≤ x ∧ x < uEnd then some ID else ledger.owner x }
  | .evaluate s moment =>
    { owner := fun x =>
        if blockResult h s (floorIndex h x) = EStatus.eUnknown then ledger.owner x else none
      account := fun t => ((counted EStatus.eCorrupted moment.uClearTime
        (bytesSent h s ledger.owner EStatus.eCorrupted t) (counted EStatus.eVerified moment.uClearTime
          (bytesSent h s ledger.owner EStatus.eVerified t) (ledger.account t))).map
            (SSuspect.judge moment.dropRatio)).filter fun Suspect => ¬Suspect.uClearTime < moment.uNow }

/-- The steps of a logger that was just made. -/
def run (ops : List Op) : Option Logger := ops.foldlM (step h) (Logger.new h.totalSize)

/-- The steps of a ledger. -/
def Ledger.run (ops : List Op) : Ledger := ops.foldl (Ledger.step h) Ledger.new

/-- The record of a byte. -/
def recordOf : Option (List UInt8) → SRecord
  | none => recordMapOps.default
  | some ID => ⟨EStatus.eUnknown, ID⟩

/-- A logger has the contents of a ledger. -/
structure Refines (logger : Logger) (ledger : Ledger) : Prop where
  /-- The records are in order. -/
  canonical : Canonical recordMapOps h.totalSize logger.records
  /-- Each byte has the record of its contributor. -/
  records : ∀ x < h.totalSize, stateAt recordMapOps logger.records x = recordOf (ledger.owner x)
  /-- Each contributor has its account. -/
  suspects : ∀ t, logger.suspects.get t = ledger.account t

/-- The logger ends, and has charged each contributor what the ledger has. -/
def Exact (ops : List Op) : Prop :=
  ∃ logger, run h ops = some logger ∧ Refines h logger (Ledger.run h ops)

/-- Ranges are in the file and not empty, and there is a bit for each block. -/
def OpOk : Op → Prop
  | .record uBegin uEnd _ => uBegin < uEnd ∧ uEnd ≤ h.totalSize
  | .evaluate s _ => Sized h s

/-- Each block with a result that has a recorded byte was sent completely by one contributor, and its
length is counted in 32 bits. -/
def SentWhole (owner : ℕ → Option (List UInt8)) : Op → Prop
  | .record _ _ _ => True
  | .evaluate s _ => ∀ i < getStatusCount h, blockResult h s i ≠ EStatus.eUnknown →
    (∃ x, (blockBegin h i ≤ x ∧ x < blockEnd h i) ∧ owner x ≠ none) → blockEnd h i - blockBegin h i < 2 ^ 31 ∧
        ∃ t, ∀ x, blockBegin h i ≤ x ∧ x < blockEnd h i → (owner x).map fold = some t

/-- All steps meet this, from a ledger on. -/
def AllWhole (ledger : Ledger) : List Op → Prop
  | [] => True
  | op :: ops => SentWhole h ledger.owner op ∧ AllWhole (ledger.step h op) ops

end Ledger

section Run

variable {h : CFileHashEx} (hs : SizesOk h) (hpos : 0 < h.totalSize)

include hs hpos

omit hpos in
theorem record_refines {logger : Logger} {ledger : Ledger} (hrefines : Refines h logger ledger)
    {uBegin uEnd : ℕ} (hlt : uBegin < uEnd) (hend : uEnd ≤ h.totalSize) (ID : List UInt8) :
    Refines h (record uBegin uEnd ID logger) (ledger.step h (Op.record uBegin uEnd ID)) := by
  refine ⟨setRange_canonical_of_le hrefines.canonical (totalSize_lt hs) hlt.le hend _ _,
    fun x hx => ?_, hrefines.suspects⟩
  rw [record, stateAt_setRange_of_le hrefines.canonical (totalSize_lt hs) hlt.le hend, Ledger.step]
  dsimp only
  split_ifs
  · rfl
  · exact hrefines.records x hx

variable {s : Status} {ledger : Ledger} {moment : Moment}

/-- A block that was sent as a whole was sent by one contributor. -/
theorem oneSender (hwhole : SentWhole h ledger.owner (Op.evaluate s moment)) :
    OneSender h s fun x => recordOf (ledger.owner x) := by
  intro x hx y hy hsame hresult hrecord
  have hxin := (in_block_iff hs hpos hx (floorIndex h x)).mpr rfl
  have hyin := (in_block_iff hs hpos hy (floorIndex h x)).mpr hsame
  obtain ⟨-, t, hall⟩ := hwhole (floorIndex h x) (floorIndex_lt_count hs hpos hx) hresult ⟨x, hxin, fun hnone => by
      dsimp only at hrecord
      rw [hnone] at hrecord
      exact EStatus.noConfusion hrecord⟩
  obtain ⟨xID, hxID, hxt⟩ := Option.map_eq_some_iff.mp (hall x hxin)
  obtain ⟨yID, hyID, hyt⟩ := Option.map_eq_some_iff.mp (hall y hyin)
  dsimp only
  rw [hxID, hyID]
  exact ⟨rfl, hyt.trans hxt.symm⟩

omit hs hpos in
theorem recordOf_unknown_iff (owner : Option (List UInt8)) :
    (recordOf owner).eStatus = EStatus.eUnknown ↔ ∃ ID, owner = some ID := by
  cases owner with
  | none => exact iff_of_false nofun nofun
  | some ID => exact iff_of_true rfl ⟨ID, rfl⟩

omit hs hpos in
theorem recordOf_not_decided (owner : Option (List UInt8)) : ¬Decided (recordOf owner) := by
  cases owner with
  | none => exact fun hc => hc.elim EStatus.noConfusion EStatus.noConfusion
  | some ID => exact fun hc => hc.elim EStatus.noConfusion EStatus.noConfusion

omit hs hpos in
theorem blockResult_cases (i : ℕ) : blockResult h s i = EStatus.eUnknown ∨
    blockResult h s i = EStatus.eVerified ∨ blockResult h s i = EStatus.eCorrupted := by
  rw [blockResult]
  split_ifs
  · exact Or.inr (Or.inl rfl)
  · exact Or.inr (Or.inr rfl)
  · exact Or.inl rfl

/-- The states that the first loop leaves over the records of a ledger. -/
def Applied (h : CFileHashEx) (s : Status) (ledger : Ledger) (state : ℕ → SRecord) : Prop :=
  ∀ x < h.totalSize, (Due h s (fun x => recordOf (ledger.owner x)) x →
      (state x).eStatus = blockResult h s (floorIndex h x) ∧ fold (state x).ID = fold (recordOf (ledger.owner x)).ID) ∧
    (¬Due h s (fun x => recordOf (ledger.owner x)) x → state x = recordOf (ledger.owner x))

omit hs hpos in
theorem decided_iff {state : ℕ → SRecord} (happlied : Applied h s ledger state) {x : ℕ} (hx : x < h.totalSize) :
    Decided (state x) ↔ Due h s (fun x => recordOf (ledger.owner x)) x := by
  by_cases hdue : Due h s (fun x => recordOf (ledger.owner x)) x
  · refine iff_of_true ?_ hdue
    rw [Decided, ((happlied x hx).1 hdue).1]
    exact (blockResult_cases _).resolve_left hdue.1
  · refine iff_of_false ?_ hdue
    rw [(happlied x hx).2 hdue]
    exact recordOf_not_decided _

/-- The first loop leaves results that are counted as blocks. -/
theorem settled_of_applied (hwhole : SentWhole h ledger.owner (Op.evaluate s moment))
    {state : ℕ → SRecord} (happlied : Applied h s ledger state) : Settled h state := by
  have hone := oneSender hs hpos hwhole
  refine ⟨fun x hx => ?_, fun x hx y hy hsame hdecided => ?_, fun x hx hdecided => ?_⟩
  · by_cases hdecided : Decided (state x)
    · exact Or.inr hdecided
    · rw [(happlied x hx).2 (mt (decided_iff happlied hx).mpr hdecided)]
      cases ledger.owner x with
      | none => exact Or.inl (Or.inl rfl)
      | some ID => exact Or.inl (Or.inr rfl)
  · have hdue := (decided_iff happlied hx).mp hdecided
    have hother := (hone x hx y hy hsame hdue.1 hdue.2).1
    rw [((happlied x hx).1 hdue).1, ((happlied y hy).1 ⟨hsame ▸ hdue.1, hother⟩).1, hsame]
  · have hdue := (decided_iff happlied hx).mp hdecided
    obtain ⟨ID, hID⟩ := (recordOf_unknown_iff _).mp hdue.2
    exact (hwhole _ (floorIndex_lt_count hs hpos hx) hdue.1
      ⟨x, (in_block_iff hs hpos hx _).mpr rfl, by rw [hID]; exact Option.some_ne_none ID⟩).1

omit hs hpos in
/-- The bytes that are counted for a contributor are those that it sent. -/
theorem sent_iff {state : ℕ → SRecord} (happlied : Applied h s ledger state) {x : ℕ}
    (hx : x < h.totalSize) {eStatus : EStatus}
    (hstatus : eStatus = EStatus.eVerified ∨ eStatus = EStatus.eCorrupted) (t : List ℕ) :
    ((state x).eStatus = eStatus ∧ fold (state x).ID = t) ↔
      blockResult h s (floorIndex h x) = eStatus ∧ (ledger.owner x).map fold = some t := by
  by_cases hdue : Due h s (fun x => recordOf (ledger.owner x)) x
  · obtain ⟨hresult, hfold⟩ := (happlied x hx).1 hdue
    obtain ⟨ID, hID⟩ := (recordOf_unknown_iff _).mp hdue.2
    rw [hresult, hfold, hID, Option.map_some, Option.some_inj]
    rfl
  · have hundecided := mt (decided_iff happlied hx).mp hdue
    refine iff_of_false (fun hc => hundecided ?_) fun hc => hdue ⟨?_, ?_⟩
    · rw [Decided, hc.1]
      exact hstatus
    · rw [hc.1]
      rcases hstatus with rfl | rfl <;> exact EStatus.noConfusion
    · obtain ⟨ID, hID, -⟩ := Option.map_eq_some_iff.mp hc.2
      exact (recordOf_unknown_iff _).mpr ⟨ID, hID⟩

variable {logger : Logger}

/-- An evaluation charges what the ledger does, if all blocks with a result were sent as a whole. -/
theorem evaluate_refines (hrefines : Refines h logger ledger)
    (hsized : Sized h s) (hwhole : SentWhole h ledger.owner (Op.evaluate s moment)) :
    ∃ logger', evaluate h s moment logger = some logger' ∧
      Refines h logger' (ledger.step h (Op.evaluate s moment)) := by
  obtain ⟨records, hrecords, hcan, happlied⟩ := applyResults_spec hs hpos hsized
    (oneSender hs hpos hwhole) hrefines.canonical hrefines.records
  have hsettled := settled_of_applied hs hpos hwhole happlied
  have hspec : ∃ logger', countRecords h moment ⟨records, logger.suspects⟩ = some logger' ∧
      CountedTo h moment (stateAt recordMapOps records) logger.suspects h.totalSize logger' :=
    countRecords_spec hs hpos hsettled hcan fun x _ => rfl
  obtain ⟨logger', hcount, hcounted⟩ := hspec
  refine ⟨{ logger' with suspects := judgeSuspects moment logger'.suspects }, ?_,
    hcounted.canonical, fun x hx => ?_, fun t => ?_⟩
  · rw [evaluate, hrecords, Option.bind_some, hcount, Option.map_some]
  · rw [Ledger.step]
    dsimp only
    by_cases hdecided : Decided (stateAt recordMapOps records x)
    · rw [hcounted.cleared x hx hx hdecided, if_neg ((decided_iff happlied hx).mp hdecided).1]
      rfl
    · have hnot := mt (decided_iff happlied hx).mpr hdecided
      rw [hcounted.kept x hx fun hc => hdecided hc.2, (happlied x hx).2 hnot]
      split_ifs with hresult
      · rfl
      · cases howner : ledger.owner x with
        | none => rfl
        | some ID => exact absurd ⟨hresult, (recordOf_unknown_iff _).mpr ⟨ID, howner⟩⟩ hnot
  · have hsent : ∀ eStatus, eStatus = EStatus.eVerified ∨ eStatus = EStatus.eCorrupted →
        Nat.count (fun x => (stateAt recordMapOps records x).eStatus = eStatus ∧
          fold (stateAt recordMapOps records x).ID = t) h.totalSize =
          bytesSent h s ledger.owner eStatus t := by
      intro eStatus hstatus
      have hcongr := count_add_congr (Nat.zero_le h.totalSize) fun x _ hx =>
        sent_iff happlied hx hstatus t
      rw [Nat.count_zero, Nat.count_zero] at hcongr
      exact hcongr
    have hentry := hcounted.entries t
    rw [entryAfter, hsent _ (Or.inl rfl), hsent _ (Or.inr rfl), hrefines.suspects] at hentry
    rw [judgeSuspects, OrderedMap.get_filter, OrderedMap.get_mapEntries, hentry]
    rfl

theorem step_refines (hrefines : Refines h logger ledger) {op : Op} (hok : OpOk h op)
    (hwhole : SentWhole h ledger.owner op) :
    ∃ logger', step h logger op = some logger' ∧ Refines h logger' (ledger.step h op) := by
  cases op with
  | record uBegin uEnd ID => exact ⟨_, rfl, record_refines hs hrefines hok.1 hok.2 ID⟩
  | evaluate s moment => exact evaluate_refines hs hpos hrefines hok hwhole

/-- All steps of a run charge what the ledger does. -/
theorem steps_refine (ops : List Op) (hrefines : Refines h logger ledger)
    (hok : ∀ op ∈ ops, OpOk h op) (hwhole : AllWhole h ledger ops) :
    ∃ logger', ops.foldlM (step h) logger = some logger' ∧ Refines h logger' (ops.foldl (Ledger.step h) ledger) := by
  induction ops generalizing logger ledger with
  | nil => exact ⟨logger, rfl, hrefines⟩
  | cons op ops ih =>
    obtain ⟨next, hstep, hnext⟩ := step_refines hs hpos hrefines (hok op List.mem_cons_self) hwhole.1
    obtain ⟨logger', hrun, hlast⟩ := ih hnext (fun o ho => hok o (List.mem_cons_of_mem _ ho)) hwhole.2
    refine ⟨logger', ?_, hlast⟩
    rw [List.foldlM_cons, hstep]
    exact hrun

omit hs in
theorem new_refines : Refines h (Logger.new h.totalSize) Ledger.new :=
  ⟨canonical_create _ hpos, fun _ _ => stateAt_create _ _ _, fun _ => OrderedMap.get_empty _⟩

/-- Each contributor is credited, or blamed, with the bytes that it sent, in every run in which the
blocks with a result were sent as a whole. -/
theorem run_exact (ops : List Op) (hok : ∀ op ∈ ops, OpOk h op) (hwhole : AllWhole h Ledger.new ops) : Exact h ops :=
  steps_refine hs hpos ops (new_refines hpos) hok hwhole

end Run

/-- A contributor sends all of a block of two bytes, and the block is good. -/
theorem run_exact_block : Exact ⟨2, 0, 2⟩ [Op.record 0 2 [1], Op.evaluate ⟨[true], []⟩ ⟨0, 0, 40⟩] := by
  refine run_exact (SizesOk.of_lt (Or.inr (by decide)) (by decide) (by decide) (by decide) (by decide))
    (by decide) _ (fun op hop => ?_) ⟨trivial, fun i hi _ _ => ⟨?_, fold [1], fun x hx => ?_⟩, trivial⟩
  · rcases List.mem_cons.mp hop with rfl | hop
    · exact ⟨by decide, by decide⟩
    · rw [List.mem_singleton.mp hop]
      exact Or.inr (by decide)
  · rw [Nat.lt_one_iff.mp hi]
    decide
  · rw [Nat.lt_one_iff.mp hi] at hx
    exact congrArg (Option.map fold) (if_pos hx)

/-- Two contributors send one byte each of a block that is corrupt: the first one is blamed for both,
and the second one for none. -/
theorem run_inexact : ¬Exact ⟨2, 0, 2⟩
    [Op.record 0 1 [1], Op.record 1 2 [2], Op.evaluate ⟨[false], [(0, 2)]⟩ ⟨0, 0, 40⟩] := by
  rintro ⟨logger, hrun, hrefines⟩
  have hsuspects := congrArg (Option.map fun logger => logger.suspects.get (fold [2])) hrun
  rw [Option.map_some, hrefines.suspects] at hsuspects
  exact absurd hsuspects (by decide)

end NeoLoader.CorruptionLogger
