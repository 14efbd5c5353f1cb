import Mathlib.Tactic.Linarith

/-!
# Statistics of a route

Round trip times, the frames on their way, and the window of frames that may be. The
number of pending frames is kept as an integer, so that a decrement too much shows as a
negative number, where the code has an unsigned one that wraps around.
-/

namespace NeoLoader.RouteStats

structure SSummWindow where
  totalSumm : ℕ
  movingWindow : List ℕ
  position : ℕ
  deriving DecidableEq, Repr

def SSummWindow.init (size value : ℕ) (w : SSummWindow) : SSummWindow where
  totalSumm := if value ≠ 0 then value * size % 2 ^ 32 else w.totalSumm
  movingWindow :=
    w.movingWindow.take size ++ List.replicate (size - w.movingWindow.length) value
  position := w.position

def SSummWindow.add (value : ℕ) (w : SSummWindow) : SSummWindow :=
  let position := if w.position + 1 ≥ w.movingWindow.length then 0 else w.position + 1
  { totalSumm := (w.totalSumm + 2 ^ 64 - w.movingWindow.getD position 0 + value) % 2 ^ 64
    movingWindow := w.movingWindow.set position value
    position }

def SSummWindow.getAverage (w : SSummWindow) : ℕ :=
  if w.movingWindow.isEmpty then 0 else w.totalSumm / w.movingWindow.length

structure SRouteStats where
  uEstimatedRTT : BitVec 32
  uRTTDeviation : BitVec 32
  timeOut : SSummWindow
  /-- `PendingFrames`, negative where the unsigned number has wrapped around. -/
  pendingFrames : ℤ
  relayedFrames : ℕ
  droppedFrames : ℕ
  deriving DecidableEq, Repr

/-- The constructor of `SRouteStats`. -/
def SRouteStats.new : SRouteStats := ⟨0, 0, ⟨0, [], 0⟩, 0, 0, 0⟩

def SRouteStats.addSample (uSampleRTT : BitVec 32) (s : SRouteStats) : SRouteStats :=
  if s.uEstimatedRTT = 0 then
    { s with
      uEstimatedRTT := uSampleRTT
      uRTTDeviation := 0
      timeOut := s.timeOut.init 10 (uSampleRTT <<< 1).toNat }
  else
    let iSampleRTT := uSampleRTT - (s.uEstimatedRTT >>> 3)
    let uEstimatedRTT := s.uEstimatedRTT + iSampleRTT
    let iSampleRTT := if iSampleRTT.slt 0 then -iSampleRTT else iSampleRTT
    let uRTTDeviation := s.uRTTDeviation + (iSampleRTT - (s.uRTTDeviation >>> 3))
    { s with
      uEstimatedRTT
      uRTTDeviation
      timeOut := s.timeOut.add ((uEstimatedRTT >>> 3) + (uRTTDeviation >>> 1)).toNat }

structure CRouteStats where
  /-- `m_pStats`. -/
  stats : SRouteStats
  uMinTimeOut : ℕ
  uMaxTimeOut : ℕ
  timeOutAverage : ℕ
  uCongestionWindow : ℕ
  uCongestionThreshold : ℕ
  uIncrementalCounter : ℕ
  uCongestionLimit : ℕ
  deriving DecidableEq, Repr

namespace CRouteStats

/-- The constructor of `CRouteStats`. -/
def new (uMinTimeOut uMaxTimeOut uCongestionLimit : ℕ) : CRouteStats where
  stats := SRouteStats.new
  uMinTimeOut := uMinTimeOut
  uMaxTimeOut := uMaxTimeOut
  timeOutAverage := uMaxTimeOut
  uCongestionWindow := 1
  uCongestionThreshold := uCongestionLimit
  uIncrementalCounter := 0
  uCongestionLimit := uCongestionLimit

/-- `PendingFrames` as the unsigned number it is in the code. -/
def unsignedPending (s : CRouteStats) : ℕ := (s.stats.pendingFrames % 2 ^ 32).toNat

def framePending (s : CRouteStats) : CRouteStats :=
  { s with stats.pendingFrames := s.stats.pendingFrames + 1 }

def frameDropped (s : CRouteStats) : CRouteStats :=
  { s with
    stats.pendingFrames := s.stats.pendingFrames - 1
    stats.droppedFrames := s.stats.droppedFrames + 1
    uCongestionThreshold := s.uCongestionWindow
    uCongestionWindow := max 1 (s.uCongestionWindow >>> 1) }

/-- The window after a frame that was relayed, with the counter of its linear growth. -/
def grownWindow (s : CRouteStats) : ℕ × ℕ :=
  if s.uCongestionWindow ≤ s.uCongestionThreshold then
    ((s.uCongestionWindow + 1) % 2 ^ 32, s.uIncrementalCounter)
  else
    let uIncrementalCounter := (s.uIncrementalCounter + 1) % 2 ^ 16
    if uIncrementalCounter ≥ s.uCongestionWindow then ((s.uCongestionWindow + 1) % 2 ^ 32, 0)
    else (s.uCongestionWindow, uIncrementalCounter)

def frameRelayed (s : CRouteStats) : CRouteStats :=
  { s with
    stats.pendingFrames := s.stats.pendingFrames - 1
    stats.relayedFrames := s.stats.relayedFrames + 1
    uCongestionWindow := min s.grownWindow.1 s.uCongestionLimit
    uIncrementalCounter := s.grownWindow.2 }

def updateControl (s : CRouteStats) : CRouteStats :=
  let timeOutAverage := s.stats.timeOut.getAverage % 2 ^ 32
  { s with
    timeOutAverage :=
      if timeOutAverage < s.uMinTimeOut then s.uMinTimeOut
      else if timeOutAverage > s.uMaxTimeOut then s.uMaxTimeOut
      else timeOutAverage
    uCongestionWindow :=
      if s.uCongestionWindow >>> 1 > max s.unsignedPending 2 then
        (s.uCongestionWindow >>> 1) + 1
      else s.uCongestionWindow }

def isWindowFull (s : CRouteStats) : Bool := s.uCongestionWindow ≤ s.unsignedPending

/-- `AddSample`: large frames count per kilobyte. -/
def addSample (uSampleRTT uFrameSize : ℕ) (s : CRouteStats) : CRouteStats :=
  let uSampleRTT := uSampleRTT % 2 ^ 32
  let uSampleRTT :=
    if uFrameSize > 1024 then uSampleRTT / (uFrameSize / 1024 % 2 ^ 32) else uSampleRTT
  { s with stats := s.stats.addSample (BitVec.ofNat 32 uSampleRTT) }

@[simp] theorem new_pending (uMinTimeOut uMaxTimeOut uCongestionLimit : ℕ) :
    (new uMinTimeOut uMaxTimeOut uCongestionLimit).stats.pendingFrames = 0 := rfl

variable (s : CRouteStats)

@[simp] theorem framePending_pending : s.framePending.stats.pendingFrames = s.stats.pendingFrames + 1 := rfl

@[simp] theorem frameDropped_pending : s.frameDropped.stats.pendingFrames = s.stats.pendingFrames - 1 := rfl

@[simp] theorem frameRelayed_pending : s.frameRelayed.stats.pendingFrames = s.stats.pendingFrames - 1 := rfl

@[simp] theorem updateControl_pending : s.updateControl.stats.pendingFrames = s.stats.pendingFrames := rfl

@[simp] theorem addSample_pending (uSampleRTT uFrameSize : ℕ) (s : CRouteStats) :
    (s.addSample uSampleRTT uFrameSize).stats.pendingFrames = s.stats.pendingFrames := by
  unfold addSample SRouteStats.addSample
  dsimp only
  split_ifs <;> rfl

end CRouteStats

end NeoLoader.RouteStats
