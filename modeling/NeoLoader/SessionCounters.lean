import NeoLoader.FrameRelayCounters
import NeoLoader.RouteSession

/-!
# Counting the pending frames of a session

A session counts the frames of its queue that were sent. What it receives and queues only
adds frames that were not sent yet, and the sending, the time out and the acknowledgement
of a frame change the counter as they change the frame.
-/

namespace NeoLoader.SessionCounters

open KeyMap KeyMap.OrderedMap RouteStats RouteSession RouteSession.CRouteSession

/-- A frame was sent and did not time out. -/
def sent (f : SFrame) : Bool := f.sendTime ≠ 0

/-- The counter agrees with the queue. -/
def PendingOk (s : CRouteSession) : Prop :=
  s.route.stats.pendingFrames = s.frameQueue.countP sent

/-- The tick counter is not zero when frames are sent. -/
def Meets : Op → Prop
  | .process _ curTick => curTick ≠ 0
  | _ => True

/-- All that happened to the queue is that frames were added that were not sent yet. -/
structure Queues (s s' : CRouteSession) : Prop where
  /-- The statistics stay. -/
  route : s'.route = s.route
  /-- The new frames. -/
  frames : ∃ fs, s'.frameQueue = s.frameQueue ++ fs ∧ ∀ f ∈ fs, sent f = false

section Queues

variable {s s' s'' : CRouteSession}

theorem queues_of_eq (hroute : s'.route = s.route) (hframes : s'.frameQueue = s.frameQueue) : Queues s s' :=
  ⟨hroute, [], by simp [hframes]⟩

theorem Queues.trans (h1 : Queues s s') (h2 : Queues s' s'') : Queues s s'' := by
  obtain ⟨fs, hfs, hnew⟩ := h1.frames
  obtain ⟨gs, hgs, hnew'⟩ := h2.frames
  refine ⟨h2.route.trans h1.route, fs ++ gs, by rw [hgs, hfs, List.append_assoc], ?_⟩
  intro f hf
  rcases List.mem_append.mp hf with hf | hf
  · exact hnew f hf
  · exact hnew' f hf

theorem Queues.after (h : Queues s' s'') (hroute : s'.route = s.route)
    (hframes : s'.frameQueue = s.frameQueue) : Queues s s'' :=
  (queues_of_eq hroute hframes).trans h

theorem Queues.before (h : Queues s s') (hroute : s''.route = s'.route)
    (hframes : s''.frameQueue = s'.frameQueue) : Queues s s'' :=
  h.trans (queues_of_eq hroute hframes)

theorem Queues.pendingOk (h : Queues s s') (hs : PendingOk s) : PendingOk s' := by
  obtain ⟨fs, hfs, hnew⟩ := h.frames
  have hzero : fs.countP sent = 0 := List.countP_eq_zero.mpr fun f hf => by simp [hnew f hf]
  unfold PendingOk at hs ⊢
  rw [h.route, hs, hfs, List.countP_append, hzero, Nat.add_zero]

theorem queues_queueFrame (content : Content) (bSign : Bool) (s : CRouteSession) :
    Queues s (s.queueFrame content bSign) :=
  ⟨rfl, _, rfl, by simp [sent]⟩

variable (c : Crypto) (own : Owner)

theorem queues_sendHandShake (keyPkt : Option ℕ) (s : CRouteSession) : Queues s (sendHandShake own keyPkt s) := by
  unfold sendHandShake
  exact (queues_queueFrame _ _ _).after rfl rfl

theorem queues_initSession (ephemeral curTick : ℕ) (bSendHandShake : Bool) (s : CRouteSession) :
    Queues s (s.initSession own ephemeral curTick bSendHandShake) := by
  unfold initSession
  split_ifs
  · exact (queues_sendHandShake own _ _).after rfl rfl
  · exact queues_of_eq rfl rfl

theorem queues_closeSession (s : CRouteSession) : Queues s s.closeSession := by
  unfold closeSession
  exact (queues_queueFrame _ _ _).after rfl rfl

/-- Segments are no frames yet. -/
theorem queues_queueSegments (fuel : ℕ) (data : List UInt8) (s : CRouteSession) :
    Queues s (queueSegments c own fuel data s) := by
  induction fuel generalizing data s with
  | zero => exact queues_of_eq rfl rfl
  | succ fuel ih =>
    unfold queueSegments
    split_ifs
    · exact queues_of_eq rfl rfl
    · refine Queues.trans ?_ (ih _ _)
      unfold queueSegment
      split <;> exact queues_of_eq rfl rfl

theorem queues_queueBytes (buffer : List UInt8) (bStream : Bool) (s : CRouteSession) :
    Queues s (s.queueBytes c own buffer bStream) := by
  unfold queueBytes
  split_ifs
  · exact queues_queueSegments c own _ _ _
  · exact queues_queueFrame _ _ _

/-- Received segments leave the queue alone. -/
theorem queues_drain (es : List (ℕ × List UInt8)) (s : CRouteSession) : Queues s (drain c es s).2 := by
  induction es generalizing s with
  | nil => exact queues_of_eq rfl rfl
  | cons e es ih =>
    unfold drain
    split_ifs
    · exact queues_of_eq rfl rfl
    · exact ih _
    · refine Queues.trans ?_ (ih _)
      unfold handleStream
      split <;> exact queues_of_eq rfl rfl

theorem queues_handlePayload (f : Frame) (s : CRouteSession) : Queues s (handlePayload c own f s).1 := by
  unfold handlePayload
  split
  · split <;> exact queues_of_eq rfl rfl
  · exact (queues_drain c _ s).before rfl rfl
  · exact queues_of_eq rfl rfl

/-- A handshake may be answered. -/
theorem queues_handleHandshake (ephemeral : ℕ) (f : Frame) (handshake : Handshake)
    (s : CRouteSession) : Queues s (handleHandshake c own ephemeral f handshake s).1 := by
  unfold handleHandshake
  split
  · dsimp only
    split
    · exact queues_of_eq rfl rfl
    · split
      · exact queues_of_eq rfl rfl
      · dsimp only
        split_ifs
        · exact ⟨rfl, _, rfl, by simp [sent]⟩
        · exact queues_of_eq rfl rfl
  · exact queues_of_eq rfl rfl

/-- A received frame may be answered with a handshake or an end. -/
theorem queues_handleContent (busy : Bool) (ephemeral : ℕ) (f : Frame) (s : CRouteSession) :
    Queues s (handleContent c own busy ephemeral f s).1 := by
  unfold handleContent
  split
  · exact queues_handleHandshake c own _ _ _ _
  · split_ifs
    · exact queues_of_eq rfl rfl
    · exact queues_of_eq rfl rfl
    · exact (queues_closeSession s).before rfl rfl
    · exact queues_of_eq rfl rfl
    · exact queues_of_eq rfl rfl
    · exact queues_handlePayload c own _ _

theorem queues_learnKey (f : Frame) (s : CRouteSession) : Queues s (learnKey c f s).1 := by
  unfold learnKey
  split
  · split
    · exact queues_of_eq rfl rfl
    · split_ifs <;> exact queues_of_eq rfl rfl
  · exact queues_of_eq rfl rfl

theorem queues_finishFrame (f : Frame) (result : CRouteSession × Outcome) : Queues result.1 (finishFrame f result) := by
  obtain ⟨s, outcome⟩ := result
  cases outcome <;> exact queues_of_eq rfl rfl

/-- A frame that was not seen before only adds to the queue. -/
theorem queues_acceptFrame (busy : Bool) (ephemeral curTick : ℕ) (f : Frame) (s : CRouteSession) :
    Queues s (acceptFrame c own busy ephemeral curTick f s).1 := by
  have hlearn := queues_learnKey (c := c) f s
  unfold acceptFrame
  split
  · rename_i s' error heq
    rw [heq] at hlearn
    exact hlearn
  · rename_i s' heq
    rw [heq] at hlearn
    refine hlearn.trans ?_
    split
    · exact queues_of_eq rfl rfl
    · exact (queues_handleContent c own _ _ _ _).after rfl rfl

theorem queues_processFrame (busy : Bool) (ephemeral curTick : ℕ) (f : Frame) (s : CRouteSession) :
    Queues s (s.processFrame c own busy ephemeral curTick f) := by
  unfold processFrame
  dsimp only
  split_ifs
  · exact queues_of_eq rfl rfl
  · exact ((queues_acceptFrame c own _ _ _ _ _).trans (queues_finishFrame _ _)).after rfl rfl

end Queues

section Loops

variable (c : Crypto) (own : Owner) {s : CRouteSession}

/-- The payloads leave the queue alone. -/
theorem queues_handlePayloads (n : ℕ) (s : CRouteSession) : Queues s (handlePayloads c own n s).1 := by
  induction n generalizing s with
  | zero => exact queues_of_eq rfl rfl
  | succ n ih =>
    unfold handlePayloads
    split
    · exact queues_of_eq rfl rfl
    · rename_i f payloads hpayloads
      have hf := queues_handlePayload c own f s
      split
      · rename_i s' heq
        rw [heq] at hf
        exact hf.trans ((ih _).after rfl rfl)
      · rename_i s' outcome _ heq
        rw [heq] at hf
        exact hf

theorem queues_frameSegments (limit : ℕ) (es : List (ℕ × List UInt8)) (s : CRouteSession) :
    Queues s (frameSegments limit es s) := by
  induction es generalizing s with
  | nil => exact queues_of_eq rfl rfl
  | cons e es ih =>
    unfold frameSegments
    split_ifs
    · exact queues_of_eq rfl rfl
    · exact ((queues_queueFrame _ _ _).trans (ih _)).after rfl rfl

variable (turn : Turn) {curTick : ℕ}

/-- A frame that is sent and the counter change together. -/
theorem sendFrame_pending (hcur : curTick ≠ 0) (sessionKey : Option ℕ) {f : SFrame} (hf : f.sendTime = 0) (l : Loop) :
    (sendFrame own turn curTick sessionKey f l).2.route.stats.pendingFrames = l.route.stats.pendingFrames +
        [(sendFrame own turn curTick sessionKey f l).1].countP sent := by
  unfold sendFrame
  dsimp only
  split_ifs
  · simp [sent, hf]
  · simp [sent, hcur]
  · simp [sent, hf]

/-- One frame and the counter change together. -/
theorem visitFrame_pending (hcur : curTick ≠ 0) (sessionKey : Option ℕ) (f : SFrame) (l : Loop) :
    (visitFrame own turn curTick sessionKey f l).2.route.stats.pendingFrames + [f].countP sent =
      l.route.stats.pendingFrames + [(visitFrame own turn curTick sessionKey f l).1].countP sent := by
  unfold visitFrame
  dsimp only
  split_ifs with hbroken htime
  · rfl
  · rfl
  · have hf : [f].countP sent = 1 := by simp [sent, htime]
    have hzero : [{ f with sendTime := 0 }].countP sent = 0 := by simp [sent]
    rw [hf, hzero]
    simp
  · have hf : [f].countP sent = 1 := by simp [sent, htime]
    rw [sendFrame_pending own turn hcur sessionKey rfl, hf]
    dsimp only
    rw [CRouteStats.frameDropped_pending]
    push_cast
    ring
  · have htime : f.sendTime = 0 := by simpa using htime
    rw [sendFrame_pending own turn hcur sessionKey htime]
    simp [sent, htime]

theorem countP_cons (f : SFrame) (fs : List SFrame) : (f :: fs).countP sent = [f].countP sent + fs.countP sent := by
  rw [← List.countP_append, List.singleton_append]

/-- The loop over the frames keeps the counter. -/
theorem visitFrames_pending (hcur : curTick ≠ 0) (sessionKey : Option ℕ) (fs : List SFrame) (l : Loop) :
    (visitFrames own turn curTick sessionKey fs l).2.route.stats.pendingFrames + fs.countP sent =
      l.route.stats.pendingFrames + (visitFrames own turn curTick sessionKey fs l).1.countP sent := by
  induction fs generalizing l with
  | nil => simp [visitFrames]
  | cons f fs ih =>
    have hvisit := visitFrame_pending own turn hcur sessionKey f l
    have hrest := ih (visitFrame own turn curTick sessionKey f l).2
    rw [visitFrames]
    dsimp only
    rw [countP_cons f fs, countP_cons _ (visitFrames own turn curTick sessionKey fs _).1]
    push_cast
    omega

theorem queues_makeFrames (s : CRouteSession) : Queues s s.makeFrames := by
  unfold makeFrames
  split_ifs
  · exact queues_frameSegments _ _ s
  · exact queues_of_eq rfl rfl

theorem pendingOk_sendFrames (hcur : curTick ≠ 0) (h : PendingOk s) : PendingOk (sendFrames own turn curTick s) := by
  have hvisit := visitFrames_pending own turn hcur s.sessionKey s.frameQueue ⟨s.route, 0, s.relayed, false⟩
  unfold PendingOk at h ⊢
  unfold sendFrames
  dsimp only at hvisit ⊢
  omega

/-- The tick of a session keeps the counter. -/
theorem pendingOk_process (hcur : curTick ≠ 0) (h : PendingOk s)
    {s' : CRouteSession} (hs' : s.process c own turn curTick = some s') : PendingOk s' := by
  have hframes : PendingOk (tickControl turn.tenth s.makeFrames) := by
    have hmake := (queues_makeFrames s).pendingOk h
    unfold tickControl
    unfold PendingOk at hmake ⊢
    split_ifs <;> exact hmake
  have hpayloads := (queues_handlePayloads c own turn.ready
    (sendFrames own turn curTick (tickControl turn.tenth s.makeFrames))).pendingOk
      (pendingOk_sendFrames own turn hcur hframes)
  unfold process at hs'
  split_ifs at hs'
  dsimp only at hs'
  rw [Option.some.injEq] at hs'
  subst hs'
  split_ifs
  · unfold purgeTrace
    split_ifs <;> exact hpayloads
  · exact hpayloads

/-- The acknowledgement of a frame and the counter change together. -/
theorem pendingOk_ackQueue (size : Frame → ℕ) (curTick fid : ℕ) (h : PendingOk s) :
    PendingOk (s.ackQueue size curTick fid) := by
  have hspan := List.span_eq_takeWhile_dropWhile (p := fun f : SFrame => decide (f.frame.fid ≠ fid)) (l := s.frameQueue)
  have happend := List.takeWhile_append_dropWhile (p := fun f : SFrame => decide (f.frame.fid ≠ fid))
    (l := s.frameQueue)
  unfold ackQueue
  rw [hspan]
  generalize s.frameQueue.takeWhile (fun f => decide (f.frame.fid ≠ fid)) = before at *
  generalize s.frameQueue.dropWhile (fun f => decide (f.frame.fid ≠ fid)) = rest at *
  cases rest with
  | nil => exact h
  | cons f after =>
    unfold PendingOk at h ⊢
    rw [← happend, List.countP_append, countP_cons] at h
    dsimp only
    rw [List.countP_append]
    by_cases htime : f.sendTime ≠ 0
    · have hf : [f].countP sent = 1 := by simp [sent, htime]
      rw [if_pos htime, CRouteStats.addSample_pending, CRouteStats.frameRelayed_pending, h, hf]
      push_cast
      ring
    · have hf : [f].countP sent = 0 := by simpa [sent] using htime
      rw [if_neg htime, h, hf]
      push_cast
      ring

/-- Every operation at a time that is not zero keeps the counter. -/
theorem pendingOk_step (h : PendingOk s) {op : Op} (hmeets : Meets op) {s' : CRouteSession}
    (hs' : s.step c own op = some s') : PendingOk s' := by
  cases op with
  | process turn curTick => exact pendingOk_process c own turn hmeets h hs'
  | initSession ephemeral curTick bSendHandShake =>
    cases hs'
    exact (queues_initSession own ephemeral curTick bSendHandShake s).pendingOk h
  | closeSession =>
    cases hs'
    exact (queues_closeSession s).pendingOk h
  | queueBytes buffer bStream =>
    cases hs'
    exact (queues_queueBytes c own buffer bStream s).pendingOk h
  | processFrame busy ephemeral curTick f =>
    cases hs'
    exact (queues_processFrame c own busy ephemeral curTick f s).pendingOk h
  | ackFrame size curTick ack =>
    cases hs'
    unfold ackFrame
    dsimp only
    split_ifs
    · exact h
    · cases ack.err with
      | some error =>
        dsimp only
        split_ifs <;> exact h
      | none => exact pendingOk_ackQueue size curTick ack.fid h

theorem pendingOk_run (h : PendingOk s) {ops : List Op} (hmeets : ∀ op ∈ ops, Meets op)
    {s' : CRouteSession} (hs' : s.run c own ops = some s') : PendingOk s' := by
  induction ops generalizing s with
  | nil =>
    cases hs'
    exact h
  | cons op ops ih =>
    obtain ⟨s1, hs1, hrun⟩ := Option.bind_eq_some_iff.mp hs'
    exact ih (pendingOk_step c own h (hmeets op List.mem_cons_self) hs1)
      (fun op' hop' => hmeets op' (List.mem_cons_of_mem _ hop')) hrun

end Loops

section Counters

/-- The counters of a session and of a relay agree with the frames, and are not negative. -/
structure AllCountersOk (s : CRouteSession) (t : FrameRelay.CFrameRelay) : Prop where
  /-- The count of the session. -/
  session : PendingOk s
  /-- The counts of the relay and of its nodes. -/
  relay : FrameRelayCounters.CountersOk t
  /-- The count of the session did not wrap around. -/
  sessionNonneg : 0 ≤ s.route.stats.pendingFrames
  /-- The count of the relay did not wrap around. -/
  relayNonneg : 0 ≤ t.stats.pendingFrames
  /-- The counts of the nodes did not wrap around. -/
  nodesNonneg : ∀ node stats, t.nodes.get node = some stats → 0 ≤ stats.stats.pendingFrames

/-- In every run of a session and of a relay at times that are not zero, in which no node
is added anew while frames sent to it before are pending, the counters agree with the
frames. -/
theorem counters_run (c : Crypto) (own : Owner) (env : FrameRelay.Env)
    (entityID targetID sessionID fidCounter curTick relayTick : ℕ) {route : CRouteStats}
    (hroute : route.stats.pendingFrames = 0) (ops : List Op) (hops : ∀ op ∈ ops, Meets op)
    {s : CRouteSession}
    (hs : (CRouteSession.new entityID targetID sessionID fidCounter curTick route).run c own ops = some s)
    (relayOps : List FrameRelay.Op)
    (hrelay : FrameRelayCounters.RunMeets env ⟨relayTick, FrameRelay.CFrameRelay.new⟩ relayOps) :
    AllCountersOk s (FrameRelay.run env ⟨relayTick, FrameRelay.CFrameRelay.new⟩ relayOps).relay := by
  have hsession : PendingOk s := by
    refine pendingOk_run c own ?_ hops hs
    simpa [PendingOk, CRouteSession.new] using hroute
  have hcounters := FrameRelayCounters.countersOk_run
    (s := ⟨relayTick, FrameRelay.CFrameRelay.new⟩) FrameRelayCounters.countersOk_new hrelay
  refine ⟨hsession, hcounters, ?_, ?_, fun node stats hstats => ?_⟩
  · rw [hsession]
    exact Int.natCast_nonneg _
  · rw [hcounters.total]
    exact Int.natCast_nonneg _
  · rw [hcounters.nodes node stats hstats]
    exact Int.natCast_nonneg _

/-- A session that is opened and closed, and a relay that sends a frame. -/
theorem counters_run_one : 0 ≤ (FrameRelay.run ⟨id, 250, 1000, 64⟩ ⟨1, FrameRelay.CFrameRelay.new⟩ [FrameRelay.Op.add 7,
      FrameRelay.Op.relay ⟨1, 2, 3, 100⟩ 3000 none,
      FrameRelay.Op.process false (fun _ => ⟨0, 0, true, false⟩) fun _ => true]).relay.stats.pendingFrames :=
  (counters_run ⟨id, fun _ _ => none, fun _ _ => 0, fun _ _ _ b => b, fun _ _ _ b => b⟩
    ⟨1, 1, 1, 1024, 10, 60000⟩ ⟨id, 250, 1000, 64⟩ 2 1 3 0 1 1 (CRouteStats.new_pending 250 1000 64)
    [Op.initSession 5 1 true, Op.closeSession] (by simp [Meets]) rfl
    [FrameRelay.Op.add 7, FrameRelay.Op.relay ⟨1, 2, 3, 100⟩ 3000 none,
      FrameRelay.Op.process false (fun _ => ⟨0, 0, true, false⟩) fun _ => true]
    (by simp [FrameRelayCounters.RunMeets, FrameRelayCounters.Meets, FrameRelay.CFrameRelay.new,
      FrameRelay.step])).relayNonneg

/-- A node that is removed and added anew while a frame is on its way to it counts one
frame less than none when that is acknowledged. -/
theorem counters_run_wraps : ((FrameRelay.run ⟨id, 250, 1000, 64⟩ ⟨1, FrameRelay.CFrameRelay.new⟩ [FrameRelay.Op.add 7,
      FrameRelay.Op.relay ⟨1, 2, 3, 100⟩ 3000 none,
      FrameRelay.Op.process false (fun _ => ⟨0, 0, true, false⟩) fun _ => true,
      FrameRelay.Op.remove 7, FrameRelay.Op.add 7,
      FrameRelay.Op.ack ⟨1, 2, 3, none⟩ false]).relay.nodes.get 7).map
        (fun stats => stats.stats.pendingFrames) = some (-1) := by
  decide

end Counters

end NeoLoader.SessionCounters
