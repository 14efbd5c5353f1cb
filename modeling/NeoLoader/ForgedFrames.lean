import NeoLoader.RouteSession

/-!
# Forged frames

The identifier of a frame is recorded before the frame is checked. A forged frame whose
identifier is recorded already leaves no trace, and a run with such frames goes as the run
without them does. Any other forged frame takes an identifier, and the frame that has it
by right is taken for a redundant one.
-/

namespace NeoLoader.ForgedFrames

open KeyMap KeyMap.OrderedMap RouteStats RouteSession RouteSession.CRouteSession

/-- What is seen of a recorded identifier: its age, and that it was counted. -/
def sight (trace : SFIDTrace) : ℕ × Bool := (trace.age, trace.count ≠ 0)

/-- A session with other recorded identifiers. -/
@[simps] def withTrace (t : OrderedMap ℕ SFIDTrace) (s : CRouteSession) : CRouteSession :=
  { s with fidTrace := t }

/-- All of a session but how often identifiers were counted. -/
def view (s : CRouteSession) : CRouteSession × OrderedMap ℕ (ℕ × Bool) :=
  (withTrace empty s, s.fidTrace.mapValues sight)

section Blind

variable (c : Crypto) (own : Owner) (t : OrderedMap ℕ SFIDTrace)

/-- Queued segments do not depend on the identifiers. -/
theorem queueSegments_withTrace (fuel : ℕ) (data : List UInt8) (s : CRouteSession) :
    queueSegments c own fuel data (withTrace t s) = withTrace t (queueSegments c own fuel data s) := by
  induction fuel generalizing data s with
  | zero => rfl
  | succ fuel ih =>
    have hsegment : queueSegment c (data.take own.segmentSize) (withTrace t s) =
        withTrace t (queueSegment c (data.take own.segmentSize) s) := by
      unfold queueSegment
      simp only [withTrace_cryptoKey]
      cases s.cryptoKey <;> rfl
    unfold queueSegments
    split_ifs
    · rfl
    · rw [hsegment, ih]

theorem queueBytes_withTrace (buffer : List UInt8) (bStream : Bool) (s : CRouteSession) :
    queueBytes c own buffer bStream (withTrace t s) = withTrace t (queueBytes c own buffer bStream s) := by
  unfold queueBytes
  split_ifs
  · exact queueSegments_withTrace c own t _ _ s
  · rfl

theorem initSession_withTrace (ephemeral curTick : ℕ) (bSendHandShake : Bool) (s : CRouteSession) :
    initSession own ephemeral curTick bSendHandShake (withTrace t s) =
      withTrace t (initSession own ephemeral curTick bSendHandShake s) := by
  unfold initSession
  split_ifs <;> rfl

theorem handleStream_withTrace (data : List UInt8) (s : CRouteSession) :
    handleStream c data (withTrace t s) = withTrace t (handleStream c data s) := by
  unfold handleStream
  simp only [withTrace_cryptoKey]
  cases s.cryptoKey <;> rfl

theorem drain_withTrace (es : List (ℕ × List UInt8)) (s : CRouteSession) :
    drain c es (withTrace t s) = ((drain c es s).1, withTrace t (drain c es s).2) := by
  induction es generalizing s with
  | nil => rfl
  | cons e es ih =>
    unfold drain
    simp only [withTrace_recvOffset, handleStream_withTrace, ih]
    split_ifs <;> rfl

variable (f : Frame)

/-- Payloads do not depend on the identifiers. -/
theorem handlePayload_withTrace (s : CRouteSession) : handlePayload c own f (withTrace t s) =
      (withTrace t (handlePayload c own f s).1, (handlePayload c own f s).2) := by
  unfold handlePayload
  cases f.content with
  | pkt packet =>
    have hopen : openPacket own f.fid (withTrace t s) packet = openPacket own f.fid s packet := rfl
    simp only [hopen]
    cases openPacket own f.fid s packet with
    | none => rfl
    | some packet =>
      cases packet with
      | bytes data => rfl
      | map data => cases data <;> rfl
  | seg offset data =>
    simp only [reassemblyStream, withTrace_segmentBuffer, drain_withTrace]
    rfl
  | hs handshake => rfl
  | cs => rfl
  | other => rfl

/-- The keys that are learned do not depend on the identifiers. -/
theorem learnKey_withTrace (s : CRouteSession) :
    learnKey c f (withTrace t s) = (withTrace t (learnKey c f s).1, (learnKey c f s).2) := by
  unfold learnKey
  simp only [withTrace_publicKey, withTrace_entityID]
  cases f.content with
  | hs handshake =>
    cases s.publicKey with
    | some key => rfl
    | none =>
      dsimp only
      cases handshake.pk with
      | none => rfl
      | some key =>
        dsimp only
        split_ifs <;> rfl
  | pkt packet => rfl
  | seg offset data => rfl
  | cs => rfl
  | other => rfl

/-- Handshakes do not depend on the identifiers. -/
theorem handleHandshake_withTrace (ephemeral : ℕ) (f : Frame) (handshake : Handshake)
    (s : CRouteSession) : handleHandshake c own ephemeral f handshake (withTrace t s) =
      (withTrace t (handleHandshake c own ephemeral f handshake s).1,
        (handleHandshake c own ephemeral f handshake s).2) := by
  unfold handleHandshake
  cases f.auth with
  | none => rfl
  | hashed key => rfl
  | signed key =>
    dsimp only
    cases handshake.sec with
    | none => rfl
    | some ek =>
      have hexchange : ∀ targetID, exchangeKeys c ephemeral ek
          { withTrace t s with targetID := targetID } =
            exchangeKeys c ephemeral ek { s with targetID := targetID } := fun _ => rfl
      simp only [hexchange, withTrace_targetID]
      cases exchangeKeys c ephemeral ek { s with targetID := handshake.tid.getD s.targetID } with
      | none => rfl
      | some keys =>
        dsimp only
        simp only [withTrace_stage]
        split_ifs <;> rfl

theorem handleContent_withTrace (busy : Bool) (ephemeral : ℕ) (f : Frame) (s : CRouteSession) :
    handleContent c own busy ephemeral f (withTrace t s) = (withTrace t (handleContent c own busy ephemeral f s).1,
        (handleContent c own busy ephemeral f s).2) := by
  unfold handleContent
  cases f.content with
  | hs handshake => exact handleHandshake_withTrace c own t ephemeral f handshake s
  | _ =>
    simp only [withTrace_stage, handlePayload_withTrace]
    split_ifs <;> rfl

theorem authenticate_withTrace (s : CRouteSession) : authenticate f (withTrace t s) = authenticate f s := rfl

/-- A frame that was not seen before is handled as with other identifiers. -/
theorem acceptFrame_withTrace (busy : Bool) (ephemeral curTick : ℕ) (f : Frame)
    (s : CRouteSession) : acceptFrame c own busy ephemeral curTick f (withTrace t s) =
      (withTrace t (acceptFrame c own busy ephemeral curTick f s).1,
        (acceptFrame c own busy ephemeral curTick f s).2) := by
  unfold acceptFrame
  rw [learnKey_withTrace]
  cases learnKey c f s with
  | mk s' error =>
    cases error with
    | some error => rfl
    | none =>
      dsimp only
      rw [authenticate_withTrace]
      cases authenticate f s' with
      | some error => rfl
      | none => exact handleContent_withTrace c own t busy ephemeral f { s' with uLastUpdate := curTick }

theorem finishFrame_withTrace (s : CRouteSession) (outcome : Outcome) :
    finishFrame f (withTrace t s, outcome) = withTrace t (finishFrame f (s, outcome)) := by
  cases outcome <;> rfl

/-- Acknowledgements do not depend on the identifiers. -/
theorem ackFrame_withTrace (size : Frame → ℕ) (curTick : ℕ) (ack : Ack) (s : CRouteSession) :
    (ackFrame size curTick ack (withTrace t s)).2 = withTrace t (ackFrame size curTick ack s).2 := by
  unfold ackFrame
  simp only [withTrace_sessionKey]
  split_ifs
  · rfl
  · cases ack.err with
    | some error =>
      dsimp only
      split_ifs <;> rfl
    | none =>
      simp only [ackQueue, withTrace_frameQueue, withTrace_route]
      split <;> rfl

theorem frameSegments_withTrace (limit : ℕ) (es : List (ℕ × List UInt8)) (s : CRouteSession) :
    frameSegments limit es (withTrace t s) = withTrace t (frameSegments limit es s) := by
  induction es generalizing s with
  | nil => rfl
  | cons e es ih =>
    unfold frameSegments
    simp only [withTrace_frameQueue]
    split_ifs
    · rfl
    · exact ih (frameSegment e s)

theorem makeFrames_withTrace (s : CRouteSession) : makeFrames (withTrace t s) = withTrace t s.makeFrames := by
  unfold makeFrames
  simp only [withTrace_stage, withTrace_route, withTrace_segmentQueue, frameSegments_withTrace]
  split_ifs <;> rfl

/-- The payloads are handled as with other identifiers. -/
theorem handlePayloads_withTrace (n : ℕ) (s : CRouteSession) : handlePayloads c own n (withTrace t s) =
      (withTrace t (handlePayloads c own n s).1, (handlePayloads c own n s).2) := by
  induction n generalizing s with
  | zero => rfl
  | succ n ih =>
    unfold handlePayloads
    simp only [withTrace_payloads]
    cases s.payloads with
    | nil => rfl
    | cons f payloads =>
      dsimp only
      rw [handlePayload_withTrace]
      cases handlePayload c own f s with
      | mk s' outcome =>
        cases outcome with
        | done => exact ih (sendAck f none { s' with payloads := payloads })
        | failed error => rfl
        | deferred => rfl
        | thrown => rfl

end Blind

section Views

variable (c : Crypto) (own : Owner) {s s' : CRouteSession}

theorem eq_withTrace_of_view (h : view s = view s') : s' = withTrace s'.fidTrace s := by
  have hcore : withTrace empty s = withTrace empty s' := congrArg Prod.fst h
  calc s' = withTrace s'.fidTrace (withTrace empty s') := rfl
    _ = withTrace s'.fidTrace s := by rw [← hcore]; rfl

section

variable {g : CRouteSession → CRouteSession} (hg : ∀ t s, g (withTrace t s) = withTrace t (g s))

include hg

theorem fidTrace_of_blind (s : CRouteSession) : (g s).fidTrace = s.fidTrace := by
  have hself : g s = withTrace s.fidTrace (g s) := hg s.fidTrace s
  rw [hself, withTrace_fidTrace]

/-- What does not depend on the identifiers takes sessions that look the same to such. -/
theorem view_of_blind (h : view s = view s') : view (g s) = view (g s') := by
  have hsight : s.fidTrace.mapValues sight = s'.fidTrace.mapValues sight := congrArg Prod.snd h
  have heq := eq_withTrace_of_view h
  have hs' : g s' = withTrace s'.fidTrace (g s) := by
    conv_lhs => rw [heq]
    exact hg _ s
  unfold view
  rw [hs', fidTrace_of_blind hg, hsight]
  rfl

end

theorem seen_eq (fid : ℕ) (s : CRouteSession) : s.seen fid = ((s.fidTrace.mapValues sight).get fid).any Prod.snd := by
  rw [get_mapValues]
  unfold seen
  cases s.fidTrace.get fid <;> rfl

theorem view_traceFrame (curTick fid : ℕ) (s : CRouteSession) :
    view (s.traceFrame curTick fid) = (withTrace empty s, (s.fidTrace.mapValues sight).insert fid
      ((((s.fidTrace.mapValues sight).get fid).map Prod.fst).getD curTick, true)) := by
  unfold view traceFrame
  dsimp only
  rw [mapValues_insert, get_mapValues]
  cases s.fidTrace.get fid <;> rfl

theorem view_traceFrame_congr (curTick fid : ℕ) (h : view s = view s') :
    view (s.traceFrame curTick fid) = view (s'.traceFrame curTick fid) := by
  have hcore : withTrace empty s = withTrace empty s' := congrArg Prod.fst h
  have hsight : s.fidTrace.mapValues sight = s'.fidTrace.mapValues sight := congrArg Prod.snd h
  rw [view_traceFrame, view_traceFrame, hcore, hsight]

/-- A frame whose identifier is recorded leaves nothing to be seen. -/
theorem view_traceFrame_of_seen (curTick : ℕ) {fid : ℕ} (h : s.seen fid = true) :
    view (s.traceFrame curTick fid) = view s := by
  rw [view_traceFrame]
  rw [seen_eq] at h
  cases hget : (s.fidTrace.mapValues sight).get fid with
  | none =>
    rw [hget] at h
    cases h
  | some trace =>
    rw [hget] at h
    have hcount : trace.2 = true := h
    have hsame : trace = (trace.1, true) := by rw [← hcount]
    rw [Option.map_some, Option.getD_some, ← hsame, insert_eq_self hget]
    rfl

theorem blind_handled (busy : Bool) (ephemeral curTick : ℕ) (f : Frame)
    (t : OrderedMap ℕ SFIDTrace) (s : CRouteSession) :
    finishFrame f (acceptFrame c own busy ephemeral curTick f (countFrame (withTrace t s))) =
      withTrace t (finishFrame f (acceptFrame c own busy ephemeral curTick f s.countFrame)) := by
  have hcount : countFrame (withTrace t s) = withTrace t s.countFrame := rfl
  rw [hcount, acceptFrame_withTrace, finishFrame_withTrace]

/-- A received frame takes sessions that look the same to such. -/
theorem view_processFrame (busy : Bool) (ephemeral curTick : ℕ) (f : Frame)
    (h : view s = view s') : view (s.processFrame c own busy ephemeral curTick f) =
      view (s'.processFrame c own busy ephemeral curTick f) := by
  have hseen : s.seen f.fid = s'.seen f.fid := by
    have hsight : s.fidTrace.mapValues sight = s'.fidTrace.mapValues sight := congrArg Prod.snd h
    rw [seen_eq, seen_eq, hsight]
  have htraced := view_traceFrame_congr curTick f.fid h
  unfold processFrame
  rw [hseen]
  dsimp only
  split_ifs
  · exact htraced
  · exact view_of_blind (g := fun s => finishFrame f (acceptFrame c own busy ephemeral curTick f s.countFrame))
      (blind_handled c own busy ephemeral curTick f) htraced

/-- Forgetting old frames takes sessions that look the same to such. -/
theorem view_purgeTrace (turn : Turn) (curTick : ℕ) (h : view s = view s') :
    view (s.purgeTrace turn curTick) = view (s'.purgeTrace turn curTick) := by
  have hcore : withTrace empty s = withTrace empty s' := congrArg Prod.fst h
  have hsight : s.fidTrace.mapValues sight = s'.fidTrace.mapValues sight := congrArg Prod.snd h
  have hsize : s.fidTrace.size = s'.fidTrace.size := by
    rw [← size_mapValues sight, hsight, size_mapValues]
  have hkept : ∀ s : CRouteSession, (s.fidTrace.filter fun _ trace => ¬ trace.age + 300000 < curTick).mapValues sight =
        (s.fidTrace.mapValues sight).filter fun _ trace => ¬ trace.1 + 300000 < curTick :=
    fun s => mapValues_filter sight s.fidTrace fun _ trace => ¬ trace.1 + 300000 < curTick
  unfold purgeTrace
  rw [hsize]
  split_ifs
  · refine Prod.ext hcore ?_
    exact ((hkept s).trans (by rw [hsight])).trans (hkept s').symm
  · exact h

/-- The tick takes sessions that look the same to such. -/
theorem view_process (turn : Turn) (curTick : ℕ) (h : view s = view s') :
    (s.process c own turn curTick).map view = (s'.process c own turn curTick).map view := by
  have heq := eq_withTrace_of_view h
  have hover : isOver own turn curTick s' = isOver own turn curTick s := by
    rw [heq]
    rfl
  have hsent : ∀ t s, sendFrames own turn curTick (tickControl turn.tenth (makeFrames (withTrace t s))) =
      withTrace t (sendFrames own turn curTick (tickControl turn.tenth s.makeFrames)) := by
    intro t s
    rw [makeFrames_withTrace]
    rfl
  have hhandled : ∀ t s, handlePayloads c own turn.ready
      (sendFrames own turn curTick (tickControl turn.tenth (makeFrames (withTrace t s)))) =
        (withTrace t (handlePayloads c own turn.ready
          (sendFrames own turn curTick (tickControl turn.tenth s.makeFrames))).1,
          (handlePayloads c own turn.ready (sendFrames own turn curTick (tickControl turn.tenth s.makeFrames))).2) := by
    intro t s
    rw [hsent, handlePayloads_withTrace]
  have hview : view (handlePayloads c own turn.ready
      (sendFrames own turn curTick (tickControl turn.tenth s.makeFrames))).1 = view (handlePayloads c own turn.ready
          (sendFrames own turn curTick (tickControl turn.tenth s'.makeFrames))).1 :=
    view_of_blind (g := fun s => (handlePayloads c own turn.ready
      (sendFrames own turn curTick (tickControl turn.tenth s.makeFrames))).1)
      (fun t s => congrArg Prod.fst (hhandled t s)) h
  have hthrown : (handlePayloads c own turn.ready
      (sendFrames own turn curTick (tickControl turn.tenth s.makeFrames))).2 = (handlePayloads c own turn.ready
          (sendFrames own turn curTick (tickControl turn.tenth s'.makeFrames))).2 := by
    rw [heq]
    exact (congrArg Prod.snd (hhandled s'.fidTrace s)).symm
  unfold process
  rw [hover]
  dsimp only
  rw [hthrown]
  split_ifs
  · rfl
  · rw [Option.map_some, Option.map_some, view_purgeTrace turn curTick hview]
  · rw [Option.map_some, Option.map_some, hview]

/-- Every operation takes sessions that look the same to such. -/
theorem view_step (op : Op) (h : view s = view s') : (s.step c own op).map view = (s'.step c own op).map view := by
  cases op with
  | initSession ephemeral curTick bSendHandShake =>
    exact congrArg some (view_of_blind (fun t s => initSession_withTrace own t ephemeral curTick bSendHandShake s) h)
  | closeSession => exact congrArg some (view_of_blind (fun _ _ => rfl) h)
  | queueBytes buffer bStream =>
    exact congrArg some (view_of_blind (fun t s => queueBytes_withTrace c own t buffer bStream s) h)
  | processFrame busy ephemeral curTick f =>
    exact congrArg some (view_processFrame c own busy ephemeral curTick f h)
  | ackFrame size curTick ack =>
    exact congrArg some (view_of_blind (g := fun s => (s.ackFrame size curTick ack).2)
      (fun t s => ackFrame_withTrace t size curTick ack s) h)
  | process turn curTick => exact view_process c own turn curTick h

end Views

section Runs

variable (c : Crypto) (own : Owner) {s s' : CRouteSession}

/-- A frame fails the checks of `ProcessFrame`. -/
def rejected (f : Frame) (s : CRouteSession) : Bool :=
  match learnKey c f s with
  | (_, some _) => true
  | (s, none) => (authenticate f s).isSome

/-- A session with a session key gets a frame or an acknowledgement that fails the check. -/
def forged (s : CRouteSession) : Op → Bool
  | .processFrame _ _ _ f => s.sessionKey.isSome && rejected c f s
  | .ackFrame _ _ ack => s.sessionKey.any fun key => ack.auth ≠ Auth.hashed key
  | _ => false

/-- When a forged frame does no harm: its identifier is recorded already. -/
def Meets (s : CRouteSession) : Op → Prop
  | .processFrame busy ephemeral curTick f =>
    forged c s (Op.processFrame busy ephemeral curTick f) = true → s.seen f.fid = true
  | _ => True

/-- Each operation of a run meets its condition. -/
def RunMeets (s : CRouteSession) : List Op → Prop
  | [] => True
  | op :: ops => Meets c s op ∧ ∀ s' ∈ s.step c own op, RunMeets s' ops

/-- The operations of a run without those that are forged. -/
def genuine (s : CRouteSession) : List Op → List Op
  | [] => []
  | op :: ops =>
    (if forged c s op then [] else [op]) ++ ((s.step c own op).map fun s' => genuine s' ops).getD []

/-- A forged frame or acknowledgement that meets the condition leaves the session as it was. -/
theorem view_step_of_forged {op : Op} (hforged : forged c s op = true) (hmeets : Meets c s op) :
    ∃ s', s.step c own op = some s' ∧ view s' = view s := by
  cases op with
  | processFrame busy ephemeral curTick f =>
    have hseen := hmeets hforged
    refine ⟨_, rfl, ?_⟩
    unfold processFrame
    rw [if_pos hseen]
    exact view_traceFrame_of_seen curTick hseen
  | ackFrame size curTick ack =>
    refine ⟨_, rfl, ?_⟩
    unfold ackFrame
    rw [if_pos (by simpa [forged] using hforged)]
  | initSession _ _ _ => cases hforged
  | closeSession => cases hforged
  | queueBytes _ _ => cases hforged
  | process _ _ => cases hforged

/-- A frame that was not seen before is recorded. -/
theorem seen_processFrame (busy : Bool) (ephemeral curTick : ℕ) (f : Frame) (s : CRouteSession) :
    (s.processFrame c own busy ephemeral curTick f).seen f.fid = true := by
  have htraced : (s.traceFrame curTick f.fid).seen f.fid = true := by
    simp [seen, traceFrame]
  have hhandled := fidTrace_of_blind (g := fun s => finishFrame f
    (acceptFrame c own busy ephemeral curTick f s.countFrame))
    (blind_handled c own busy ephemeral curTick f) (s.traceFrame curTick f.fid)
  unfold processFrame
  dsimp only at hhandled ⊢
  split_ifs
  · exact htraced
  · unfold seen
    rw [hhandled]
    exact htraced

/-- Forged frames with recorded identifiers, and forged acknowledgements, can be taken out
of a run. -/
theorem run_genuine (ops : List Op) (h : view s = view s') (hmeets : RunMeets c own s ops) :
    (s.run c own ops).map view = (s'.run c own (genuine c own s ops)).map view := by
  induction ops generalizing s s' with
  | nil => exact congrArg some h
  | cons op ops ih =>
    obtain ⟨hop, hops⟩ := hmeets
    unfold genuine
    cases hforged : forged c s op with
    | true =>
      obtain ⟨s1, hs1, hview⟩ := view_step_of_forged c own hforged hop
      rw [if_pos rfl, hs1, Option.map_some, Option.getD_some, List.nil_append, run, hs1]
      exact ih (hview.trans h) (hops s1 hs1)
    | false =>
      have hstep := view_step c own op h
      rw [if_neg (by decide), List.singleton_append, run, run]
      cases hs1 : s.step c own op with
      | none =>
        rw [hs1, Option.map_none] at hstep
        rw [Option.map_eq_none_iff.mp hstep.symm]
        rfl
      | some s1 =>
        rw [hs1, Option.map_some] at hstep
        obtain ⟨s2, hs2, hview⟩ := Option.map_eq_some_iff.mp hstep.symm
        rw [hs2]
        exact ih hview.symm (hops s1 hs1)

/-- A forged frame leaves a session as it was exactly when its identifier is recorded, and a
forged acknowledgement always does; and a run in which every forged frame has a recorded
identifier goes as the run without what is forged. -/
theorem forged_run (s : CRouteSession) : (∀ op s', forged c s op = true → s.step c own op = some s' →
      (view s' = view s ↔ Meets c s op)) ∧
    ∀ ops, RunMeets c own s ops → (s.run c own ops).map view = (s.run c own (genuine c own s ops)).map view := by
  refine ⟨fun op s' hforged hs' => ⟨fun hview => ?_, fun hmeets => ?_⟩,
    fun ops hmeets => run_genuine c own ops rfl hmeets⟩
  · cases op with
    | processFrame busy ephemeral curTick f =>
      intro _
      have hseen := seen_processFrame c own busy ephemeral curTick f s
      cases hs'
      have hsight : (s.processFrame c own busy ephemeral curTick f).fidTrace.mapValues sight =
          s.fidTrace.mapValues sight := congrArg Prod.snd hview
      rwa [seen_eq, hsight, ← seen_eq] at hseen
    | _ => trivial
  · obtain ⟨s1, hs1, hview⟩ := view_step_of_forged c own hforged hmeets
    rw [hs'] at hs1
    cases hs1
    exact hview

/-- A frame, and a forged one with its identifier after it. -/
theorem forged_run_one : ((CRouteSession.new 2 1 3 0 1 (CRouteStats.new 250 1000 64)).run
      ⟨id, fun a b => some (a + b), fun _ _ => 0, fun _ _ _ b => b, fun _ _ _ b => b⟩
      ⟨1, 1, 1, 1024, 10, 60000⟩
      [Op.processFrame false 5 1 ⟨100, Content.hs ⟨none, some 2, some (some 6)⟩, Auth.signed 2⟩,
        Op.processFrame false 5 1 ⟨100, Content.seg 0 [7], Auth.none⟩]).map view =
    ((CRouteSession.new 2 1 3 0 1 (CRouteStats.new 250 1000 64)).run
      ⟨id, fun a b => some (a + b), fun _ _ => 0, fun _ _ _ b => b, fun _ _ _ b => b⟩
      ⟨1, 1, 1, 1024, 10, 60000⟩
      [Op.processFrame false 5 1 ⟨100, Content.hs ⟨none, some 2, some (some 6)⟩, Auth.signed 2⟩]).map view :=
  (forged_run ⟨id, fun a b => some (a + b), fun _ _ => 0, fun _ _ _ b => b, fun _ _ _ b => b⟩
    ⟨1, 1, 1, 1024, 10, 60000⟩ (CRouteSession.new 2 1 3 0 1 (CRouteStats.new 250 1000 64))).2
    [Op.processFrame false 5 1 ⟨100, Content.hs ⟨none, some 2, some (some 6)⟩, Auth.signed 2⟩,
      Op.processFrame false 5 1 ⟨100, Content.seg 0 [7], Auth.none⟩]
    ⟨fun h => absurd h (by decide), fun s' hs' => by
      cases hs'
      exact ⟨fun _ => by decide, fun s'' _ => trivial⟩⟩

/-- A forged frame keeps the frame that has its identifier by right from being accepted. -/
theorem forged_run_drops : ((CRouteSession.new 2 1 3 0 1 (CRouteStats.new 250 1000 64)).run
      ⟨id, fun a b => some (a + b), fun _ _ => 0, fun _ _ _ b => b, fun _ _ _ b => b⟩
      ⟨1, 1, 1, 1024, 10, 60000⟩
      [Op.processFrame false 5 1 ⟨100, Content.hs ⟨none, some 2, some (some 6)⟩, Auth.signed 2⟩,
        Op.processFrame false 5 1 ⟨101, Content.seg 0 [7], Auth.none⟩,
        Op.processFrame false 5 1 ⟨101, Content.seg 0 [7], Auth.hashed 11⟩]).map CRouteSession.stream = some [] ∧
    ((CRouteSession.new 2 1 3 0 1 (CRouteStats.new 250 1000 64)).run
      ⟨id, fun a b => some (a + b), fun _ _ => 0, fun _ _ _ b => b, fun _ _ _ b => b⟩
      ⟨1, 1, 1, 1024, 10, 60000⟩
      [Op.processFrame false 5 1 ⟨100, Content.hs ⟨none, some 2, some (some 6)⟩, Auth.signed 2⟩,
        Op.processFrame false 5 1 ⟨101, Content.seg 0 [7], Auth.hashed 11⟩]).map CRouteSession.stream = some [7] := by
  decide

end Runs

end NeoLoader.ForgedFrames
