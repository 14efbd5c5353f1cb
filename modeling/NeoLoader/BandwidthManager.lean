import NeoLoader.CellFolds
import NeoLoader.KeyMapTotals

/-!
# The bandwidth manager

Limiters ask for bandwidth and wait in a queue. In each round every limit gets new quota and shares it out
among the limiters that go by it, as their priorities are. Beside what the code keeps, each limit has counts
of the quota it was credited, of the bytes granted through it and of those that were returned to it.
-/

namespace NeoLoader.BandwidthManager

open CellFolds KeyMap KeyMap.OrderedMap

section Limits

/-- A number as `int`. -/
def int32 (n : ℤ) : ℤ := n.bmod (2 ^ 32)

/-- A number as `uint32`. -/
def uint32 (n : ℤ) : ℤ := n % 2 ^ 32

structure CBandwidthLimit where
  m_iTmp : ℤ
  m_iDistributeQuota : ℤ
  m_iQuotaLeft : ℤ
  m_iLimit : ℤ
  m_iPriority : ℤ
  /-- The quota that `Process` has added. -/
  credited : ℤ
  /-- The bytes that `UseQuota` has taken. -/
  granted : ℤ
  /-- The bytes that `ReturnQuota` has added. -/
  returned : ℤ
  deriving DecidableEq, Repr

namespace CBandwidthLimit

/-- The constructor of `CBandwidthLimit`. -/
def new : CBandwidthLimit := ⟨0, 0, 0, 0, 0, 0, 0, 0⟩

/-- `CBandwidthLimit::SetLimit`. -/
def SetLimit (iLimit : ℤ) (pLimit : CBandwidthLimit) : CBandwidthLimit :=
  { pLimit with m_iLimit := if iLimit = -1 then 0 else iLimit }

/-- `CBandwidthLimit::SetPriority`. -/
def SetPriority (iPriority : ℤ) (pLimit : CBandwidthLimit) : CBandwidthLimit :=
  { pLimit with m_iPriority := if iPriority < 0 then 0 else if iPriority > 255 then 255 else iPriority }

/-- The quota of an interval. -/
def quotaOf (iLimit iInterval : ℤ) : ℤ := (int32 (iLimit * iInterval + 500)).tdiv 1000

/-- `CBandwidthLimit::Process`. -/
def Process (iInterval : ℤ) (pLimit : CBandwidthLimit) : CBandwidthLimit :=
  if pLimit.m_iLimit = 0 then pLimit
  else
    let m_iQuotaLeft := min (pLimit.m_iQuotaLeft + quotaOf pLimit.m_iLimit iInterval)
      (int32 (pLimit.m_iLimit * 3))
    { pLimit with
      m_iQuotaLeft := m_iQuotaLeft
      m_iDistributeQuota := max m_iQuotaLeft 0
      credited := pLimit.credited + quotaOf pLimit.m_iLimit iInterval }

/-- `CBandwidthLimit::ReturnQuota`. -/
def ReturnQuota (iAmount : ℤ) (pLimit : CBandwidthLimit) : CBandwidthLimit :=
  if pLimit.m_iLimit = 0 then pLimit
  else { pLimit with
    m_iQuotaLeft := pLimit.m_iQuotaLeft + iAmount
    returned := pLimit.returned + iAmount }

/-- `CBandwidthLimit::UseQuota`. -/
def UseQuota (iAmount : ℤ) (pLimit : CBandwidthLimit) : CBandwidthLimit :=
  if pLimit.m_iLimit = 0 then pLimit
  else { pLimit with
    m_iQuotaLeft := pLimit.m_iQuotaLeft - iAmount
    granted := pLimit.granted + iAmount }

end CBandwidthLimit

end Limits

section Queue

def BW_PRIO_NORMAL : ℤ := 100

def MSS : ℤ := 1402

structure SEntry where
  iPriority : ℤ
  iAssigned : ℤ
  iRequestSize : ℤ
  iTTL : ℤ
  iIdle : ℤ
  Limits : List ℕ
  deriving DecidableEq, Repr

/-- The constructor of `SEntry`. -/
def SEntry.new : SEntry := ⟨1, 0, 0, 20, 0, []⟩

/-- `CBandwidthManager`, with all limits there are and the quota of the limiters. -/
structure CBandwidthManager where
  m_iQueuedBytes : ℤ
  m_Queue : OrderedMap ℕ SEntry
  /-- The limits. -/
  limits : ℕ → CBandwidthLimit
  /-- `m_Quota` of the limiters. -/
  m_Quota : ℕ → ℤ

/-- A new manager. -/
def CBandwidthManager.new : CBandwidthManager := ⟨0, empty, fun _ => CBandwidthLimit.new, fun _ => 0⟩

/-- There is a limit that is not infinite. -/
def isLimited (limits : ℕ → CBandwidthLimit) (Limits : List ℕ) : Bool :=
  Limits.any fun pLimit => (limits pLimit).m_iLimit ≠ 0

/-- The priorities of limits that are not zero. -/
def priorities (limits : ℕ → CBandwidthLimit) (Limits : List ℕ) : List ℤ :=
  (Limits.map fun pLimit => (limits pLimit).m_iPriority).filter fun iPriority => iPriority ≠ 0

/-- `CBandwidthManager::UpdateEntry`. -/
def UpdateEntry (limits : ℕ → CBandwidthLimit) (Limits : List ℕ) (pEntry : SEntry) : SEntry × Bool :=
  let iPriorityCount := (priorities limits Limits).length
  ({ pEntry with
    Limits := Limits
    iPriority := if iPriorityCount > 0 then (priorities limits Limits).sum.tdiv iPriorityCount
      else BW_PRIO_NORMAL },
    isLimited limits Limits)

/-- The limits after each limit of a list has had its turn. -/
def forLimits (Limits : List ℕ) (f : CBandwidthLimit → CBandwidthLimit) (limits : ℕ → CBandwidthLimit) :
    ℕ → CBandwidthLimit :=
  Limits.foldl (fun limits pLimit => modifyCell limits pLimit f) limits

/-- `CBandwidthLimiter::AssignBandwidth`. -/
def giveQuota (pLimiter : ℕ) (iAmount : ℤ) (m_Quota : ℕ → ℤ) : ℕ → ℤ :=
  modifyCell m_Quota pLimiter fun quota => quota + iAmount

/-- The request of an entry, raised to an amount. -/
def raiseRequest (iAmount : ℤ) (pEntry : SEntry) : SEntry :=
  if pEntry.iRequestSize < iAmount then { pEntry with iRequestSize := iAmount } else pEntry

/-- `CBandwidthManager::RequestBandwidth`. -/
def RequestBandwidth (Limits : List ℕ) (pLimiter : ℕ) (iAmount : ℤ) (s : CBandwidthManager) :
    CBandwidthManager :=
  let found := (s.m_Queue.get pLimiter).getD SEntry.new
  let raised := raiseRequest iAmount found
  let m_iQueuedBytes := int32 (s.m_iQueuedBytes + (raised.iRequestSize - found.iRequestSize))
  let updated := UpdateEntry s.limits Limits raised
  if updated.2 then
    { s with m_iQueuedBytes := m_iQueuedBytes, m_Queue := s.m_Queue.insert pLimiter updated.1 }
  else
    { s with
      m_iQueuedBytes := int32 (m_iQueuedBytes - updated.1.iRequestSize)
      m_Queue := s.m_Queue.insert pLimiter { updated.1 with iRequestSize := 0 }
      m_Quota := giveQuota pLimiter updated.1.iRequestSize s.m_Quota }

/-- `CBandwidthManager::UpdateLimits`. -/
def UpdateLimits (Limits : List ℕ) (pLimiter : ℕ) (s : CBandwidthManager) : CBandwidthManager :=
  { s with m_Queue := s.m_Queue.modify pLimiter fun pEntry => (UpdateEntry s.limits Limits pEntry).1 }

/-- `CBandwidthManager::ReturnBandwidth`. -/
def ReturnBandwidth (pLimiter : ℕ) (s : CBandwidthManager) : CBandwidthManager :=
  match s.m_Queue.get pLimiter with
  | none => s
  | some pEntry =>
    { s with
      m_iQueuedBytes := int32 (s.m_iQueuedBytes - (pEntry.iRequestSize - pEntry.iAssigned))
      m_Queue := s.m_Queue.erase pLimiter
      limits := forLimits pEntry.Limits (CBandwidthLimit.ReturnQuota pEntry.iAssigned) s.limits }

end Queue

section Rounds

/-- The limits of all entries, each with the priority of the entry. -/
def turns (entries : List (ℕ × SEntry)) : List (ℕ × ℤ) :=
  entries.flatMap fun I => I.2.Limits.map fun pLimit => (pLimit, I.2.iPriority)

/-- The first loop of `CBandwidthManager::Process`. -/
def clearTmp (entries : List (ℕ × SEntry)) (limits : ℕ → CBandwidthLimit) : ℕ → CBandwidthLimit :=
  (turns entries).foldl (fun limits turn => modifyCell limits turn.1 fun pLimit => { pLimit with m_iTmp := 0 }) limits

/-- A turn of the second loop: the limit is processed at its first turn, and adds the priority. -/
def addPriority (iInterval iPriority : ℤ) (pLimit : CBandwidthLimit) : CBandwidthLimit :=
  let pLimit := if pLimit.m_iTmp = 0 then pLimit.Process iInterval else pLimit
  { pLimit with m_iTmp := int32 (pLimit.m_iTmp + iPriority) }

/-- The second loop of `CBandwidthManager::Process`. -/
def updateQuota (iInterval : ℤ) (entries : List (ℕ × SEntry)) (limits : ℕ → CBandwidthLimit) : ℕ → CBandwidthLimit :=
  (turns entries).foldl (fun limits turn => modifyCell limits turn.1 (addPriority iInterval turn.2)) limits

/-- The share of a priority in the quota of a limit, with unsigned numbers. -/
def share (pLimit : CBandwidthLimit) (iPriority : ℤ) : ℤ :=
  uint32 (uint32 pLimit.m_iDistributeQuota * iPriority) / uint32 pLimit.m_iTmp

/-- `Min` of a `uint32` and an `int`, as `int`. -/
def minQuota (x iQuota : ℤ) : ℤ := int32 (if x < uint32 iQuota then x else uint32 iQuota)

/-- `iQuota` of `CBandwidthManager::AssignBandwidth`. -/
def quotaFor (limits : ℕ → CBandwidthLimit) (pEntry : SEntry) : ℤ :=
  pEntry.Limits.foldl (fun iQuota pLimit => if (limits pLimit).m_iLimit = 0 then iQuota
      else minQuota (share (limits pLimit) pEntry.iPriority) iQuota)
    (pEntry.iRequestSize - pEntry.iAssigned)

/-- An entry is served: it has enough, or has waited long. -/
def serve (pEntry : SEntry) : SEntry × ℤ :=
  if pEntry.iAssigned ≥ min pEntry.iRequestSize MSS ∨ (pEntry.iTTL - 1 ≤ 0 ∧ pEntry.iAssigned > 0) then
    ({ pEntry with
      iTTL := 20
      iRequestSize := pEntry.iRequestSize - pEntry.iAssigned
      iAssigned := 0 }, pEntry.iAssigned)
  else ({ pEntry with iTTL := pEntry.iTTL - 1 }, 0)

/-- An entry waits, idle or not, or is taken out. -/
def idle (iInterval : ℤ) (pEntry : SEntry) : Option SEntry :=
  if pEntry.iRequestSize > 0 then some { pEntry with iIdle := 0 }
  else if pEntry.iIdle ≤ 5000 + 3000 then some { pEntry with iIdle := pEntry.iIdle + iInterval }
  else none

/-- The queue after a turn: the entry waits there, or is taken out. -/
def putBack (m_Queue : OrderedMap ℕ SEntry) (pLimiter : ℕ) : Option SEntry → OrderedMap ℕ SEntry
  | none => m_Queue.erase pLimiter
  | some pEntry => m_Queue.insert pLimiter pEntry

/-- A turn of the third loop of `CBandwidthManager::Process`. -/
def processEntry (iInterval : ℤ) (s : CBandwidthManager) (I : ℕ × SEntry) : CBandwidthManager :=
  let iQuota := quotaFor s.limits I.2
  let served := serve { I.2 with iAssigned := I.2.iAssigned + iQuota }
  { m_iQueuedBytes := int32 (s.m_iQueuedBytes - iQuota)
    m_Queue := putBack s.m_Queue I.1 (idle iInterval served.1)
    limits := forLimits I.2.Limits (CBandwidthLimit.UseQuota iQuota) s.limits
    m_Quota := giveQuota I.1 served.2 s.m_Quota }

/-- The limits after the first two loops. -/
def prepared (iInterval : ℤ) (s : CBandwidthManager) : ℕ → CBandwidthLimit :=
  updateQuota iInterval s.m_Queue.entries (clearTmp s.m_Queue.entries s.limits)

/-- `iInterval` of a round, at most three seconds. -/
def clamp (iInterval : ℤ) : ℤ := min iInterval 3000

/-- `CBandwidthManager::Process`. -/
def Process (iInterval : ℤ) (s : CBandwidthManager) : CBandwidthManager :=
  s.m_Queue.entries.foldl (processEntry (clamp iInterval)) { s with limits := prepared (clamp iInterval) s }

/-- What can happen. -/
inductive Op
  /-- A limiter asks for bandwidth. -/
  | RequestBandwidth (Limits : List ℕ) (pLimiter : ℕ) (iAmount : ℤ)
  /-- The limits of a limiter are others. -/
  | UpdateLimits (Limits : List ℕ) (pLimiter : ℕ)
  /-- A limiter goes. -/
  | ReturnBandwidth (pLimiter : ℕ)
  /-- A round. -/
  | Process (iInterval : ℤ)
  /-- A limit is set. -/
  | SetLimit (pLimit : ℕ) (iLimit : ℤ)
  /-- The priority of a limit is set. -/
  | SetPriority (pLimit : ℕ) (iPriority : ℤ)

/-- What happens. -/
def step (s : CBandwidthManager) : Op → CBandwidthManager
  | .RequestBandwidth Limits pLimiter iAmount => RequestBandwidth Limits pLimiter iAmount s
  | .UpdateLimits Limits pLimiter => UpdateLimits Limits pLimiter s
  | .ReturnBandwidth pLimiter => ReturnBandwidth pLimiter s
  | .Process iInterval => Process iInterval s
  | .SetLimit pLimit iLimit => { s with limits := modifyCell s.limits pLimit (CBandwidthLimit.SetLimit iLimit) }
  | .SetPriority pLimit iPriority =>
    { s with limits := modifyCell s.limits pLimit (CBandwidthLimit.SetPriority iPriority) }

end Rounds

end NeoLoader.BandwidthManager
