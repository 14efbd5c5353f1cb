import NeoLoader.FrameRelay

/-!
# The lives of relayed frames

The history of a relay shows that a frame is on its way to one node at a time, goes only
to nodes that have not failed and have room, and is acknowledged once. A frame that is
too old is removed, unless its node has acknowledged it: such a frame waits for the
other end without an end.
-/

namespace NeoLoader.FrameRelayHistory

open KeyMap KeyMap.OrderedMap RouteStats FrameRelay

/-- The receipt that an event is about. -/
def receiptOf : Event → ℕ
  | .sent f _ _ => f.receipt
  | .failed receipt _ | .relayRes receipt _ _ | .relayRet receipt _ | .removed receipt => receipt

/-- The nodes a frame is on its way to, by their identifiers: those it was sent to, until
it fails there or is removed. -/
def inFlight (env : Env) (receipt : ℕ) : List Event → List ℕ
  | [] => []
  | .sent f node _ :: history =>
    if f.receipt = receipt then env.getID node :: inFlight env receipt history
    else inFlight env receipt history
  | .failed r node :: history =>
    if r = receipt then (inFlight env receipt history).erase (env.getID node)
    else inFlight env receipt history
  | .removed r :: history => if r = receipt then [] else inFlight env receipt history
  | _ :: history => inFlight env receipt history

/-- An event is the acknowledgement of a receipt towards the source. -/
def isLocalAck (receipt : ℕ) : Event → Bool
  | .relayRes r _ none => r = receipt
  | _ => false

/-- An event is the acknowledgement of a delivery towards the source. -/
def isDeliveryAck (receipt : ℕ) : Event → Bool
  | .relayRet r _ => r = receipt
  | _ => false

/-- Frames are sent to nodes that have not failed and whose window is not full. -/
def SentOk (env : Env) : Event → Prop
  | .sent f node stats => f.hasFailed env node = false ∧ stats.isWindowFull = false
  | _ => True

/-- What the history of a relay shows. -/
structure HistoryOk (env : Env) (history : List Event) : Prop where
  /-- A frame is on its way to one node at most. -/
  inFlight : ∀ receipt, (inFlight env receipt history).length ≤ 1
  /-- Frames are sent to nodes that have not failed and whose window is not full. -/
  sent : ∀ event ∈ history, SentOk env event
  /-- A receipt is acknowledged once at most. -/
  localAcks : ∀ receipt, history.countP (isLocalAck receipt) ≤ 1
  /-- A delivery is acknowledged once at most. -/
  deliveryAcks : ∀ receipt, history.countP (isDeliveryAck receipt) ≤ 1

/-- The history of a frame that is held: it is on its way to its destination, and its
delivery is not acknowledged. -/
structure Tracked (env : Env) (history : List Event) (f : SFrame) : Prop where
  /-- The frame is on its way to its destination. -/
  inFlight : inFlight env f.receipt history = (f.dest.map env.getID).toList
  /-- A frame that is not sent has no destination. -/
  idle : f.sendTime = 0 → f.dest = none
  /-- A frame that is not sent is not acknowledged. -/
  relayTime : f.sendTime = 0 → f.relayTime = 0
  /-- The delivery is not acknowledged. -/
  returned : history.countP (isDeliveryAck f.receipt) = 0

/-- The history of a receipt whose frame is not held. -/
structure Gone (env : Env) (history : List Event) (receipt : ℕ) : Prop where
  /-- The frame is not on its way. -/
  inFlight : inFlight env receipt history = []
  /-- Its delivery was acknowledged once at most. -/
  returned : history.countP (isDeliveryAck receipt) ≤ 1

section Events

variable {env : Env} {receipt : ℕ} {history events : List Event}

theorem inFlight_append (h : ∀ event ∈ events, receiptOf event ≠ receipt) :
    inFlight env receipt (events ++ history) = inFlight env receipt history := by
  induction events with
  | nil => rfl
  | cons event events ih =>
    have hevent := h event List.mem_cons_self
    have ih := ih fun event' hevent' => h event' (List.mem_cons_of_mem _ hevent')
    rw [List.cons_append, ← ih]
    cases event <;> simp_all [inFlight, receiptOf]

theorem deliveryAcks_append (h : ∀ event ∈ events, receiptOf event ≠ receipt) :
    (events ++ history).countP (isDeliveryAck receipt) = history.countP (isDeliveryAck receipt) := by
  rw [List.countP_append, List.countP_eq_zero.mpr, zero_add]
  intro event hevent
  have hne := h event hevent
  cases event <;> simp_all [isDeliveryAck, receiptOf]

theorem Tracked.append {f : SFrame} (h : Tracked env history f)
    (hevents : ∀ event ∈ events, receiptOf event ≠ f.receipt) :
    Tracked env (events ++ history) f where
  inFlight := by rw [inFlight_append hevents, h.inFlight]
  idle := h.idle
  relayTime := h.relayTime
  returned := by rw [deliveryAcks_append hevents, h.returned]

theorem Gone.append (h : Gone env history receipt) (hevents : ∀ event ∈ events, receiptOf event ≠ receipt) :
    Gone env (events ++ history) receipt where
  inFlight := by rw [inFlight_append hevents, h.inFlight]
  returned := by rw [deliveryAcks_append hevents]; exact h.returned

end Events

/-- What happens to a held frame: events about it are recorded, and it stays as its
history says or is gone. -/
structure Lived (env : Env) (f : SFrame) (f' : Option SFrame) (history history' : List Event) :
    Prop where
  /-- The events are about the frame. -/
  events : ∃ events, history' = events ++ history ∧ ∀ event ∈ events, receiptOf event = f.receipt ∧ SentOk env event ∧
      isLocalAck f.receipt event = false
  /-- The frame stays with its receipt and its times. -/
  kept : ∀ g ∈ f', Tracked env history' g ∧ g.receipt = f.receipt ∧ g.reciveTime = f.reciveTime ∧ g.ttl = f.ttl
  /-- The frame is gone. -/
  gone : f' = none → Gone env history' f.receipt

section Frames

variable {env : Env} {curTick : ℕ} {f g : SFrame} {f' : Option SFrame}
  {history history' history'' : List Event}

theorem lived_kept (hf : Tracked env history f) : Lived env f (some f) history history where
  events := ⟨[], rfl, by simp⟩
  kept := by
    intro g hg
    obtain rfl : f = g := by simpa using hg
    exact ⟨hf, rfl, rfl, rfl⟩
  gone := by simp

/-- One thing after the other. -/
theorem Lived.trans (h : Lived env f (some g) history history')
    (h' : Lived env g f' history' history'') : Lived env f f' history history'' := by
  obtain ⟨-, hreceipt, hrecive, httl⟩ := h.kept g rfl
  obtain ⟨events, rfl, hevents⟩ := h.events
  obtain ⟨events', rfl, hevents'⟩ := h'.events
  refine ⟨⟨events' ++ events, by simp, fun event hevent => ?_⟩, fun k hk => ?_, fun hnone => ?_⟩
  · rcases List.mem_append.mp hevent with hevent | hevent
    · rw [← hreceipt]
      exact hevents' event hevent
    · exact hevents event hevent
  · obtain ⟨hk1, hk2, hk3, hk4⟩ := h'.kept k hk
    exact ⟨hk1, hk2.trans hreceipt, hk3.trans hrecive, hk4.trans httl⟩
  · rw [← hreceipt]
    exact h'.gone hnone

theorem mem_answer {event : ℕ → ℕ → Event} {e : Event} (h : e ∈ answer f event) :
    ∃ source, e = event f.receipt source := by
  unfold answer at h
  cases hsource : f.source with
  | none => simp [hsource] at h
  | some source =>
    rw [hsource] at h
    exact ⟨source, by simpa using h⟩

/-- A frame fails at its node. -/
theorem lived_fail (hf : Tracked env history f) (error : String) :
    Lived env f (some (f.fail env error)) history (failEvents f ++ history) where
  events := by
    refine ⟨failEvents f, rfl, fun event hevent => ?_⟩
    unfold failEvents at hevent
    cases hdest : f.dest with
    | none => simp [hdest] at hevent
    | some node =>
      obtain rfl : event = Event.failed f.receipt node := by simpa [hdest] using hevent
      exact ⟨rfl, trivial, rfl⟩
  kept := by
    intro g hg
    obtain rfl : _ = g := by simpa using hg
    refine ⟨⟨?_, fun _ => rfl, fun _ => rfl, ?_⟩, rfl, rfl, rfl⟩
    · have hbefore := hf.inFlight
      cases hdest : f.dest with
      | none =>
        rw [hdest] at hbefore
        simpa [failEvents, hdest, SFrame.fail] using hbefore
      | some node =>
        rw [hdest] at hbefore
        simp [failEvents, hdest, SFrame.fail, FrameRelayHistory.inFlight, hbefore]
    · have hbefore := hf.returned
      cases hdest : f.dest <;> simpa [failEvents, hdest, SFrame.fail, isDeliveryAck] using hbefore
  gone := by simp

/-- A frame is removed, with an answer to its source that acknowledges no receipt. -/
theorem lived_removed (hf : Tracked env history f) {events : List Event}
    (hevents : ∀ event ∈ events, receiptOf event = f.receipt ∧ SentOk env event ∧ isLocalAck f.receipt event = false)
    (hcount : events.countP (isDeliveryAck f.receipt) ≤ 1) :
    Lived env f none history (Event.removed f.receipt :: events ++ history) where
  events := by
    refine ⟨Event.removed f.receipt :: events, rfl, fun event hevent => ?_⟩
    rcases List.mem_cons.mp hevent with rfl | hevent
    · exact ⟨rfl, trivial, rfl⟩
    · exact hevents event hevent
  kept := by simp
  gone := by
    intro _
    refine ⟨by simp [FrameRelayHistory.inFlight], ?_⟩
    have hreturned := hf.returned
    rw [List.cons_append, List.countP_cons, List.countP_append, hreturned]
    simpa [isDeliveryAck] using hcount

theorem countP_answer_le (f : SFrame) (event : ℕ → ℕ → Event) (p : Event → Bool) : (answer f event).countP p ≤ 1 := by
  refine List.countP_le_length.trans ?_
  unfold answer
  cases f.source <;> simp

/-- A frame is sent to a node. -/
theorem lived_sendFrame {s : Loop} (hf : Tracked env s.history f) (hcur : curTick ≠ 0)
    (hsend : f.sendTime = 0) {node : ℕ} {stats : CRelayStats}
    (hnode : f.hasFailed env node = false) (hroom : stats.isWindowFull = false) :
    Lived env f (some (sendFrame curTick f node stats s).1) s.history (sendFrame curTick f node stats s).2.history where
  events := by
    refine ⟨[Event.sent f node stats], rfl, fun event hevent => ?_⟩
    obtain rfl := List.mem_singleton.mp hevent
    exact ⟨rfl, ⟨hnode, hroom⟩, rfl⟩
  kept := by
    intro g hg
    obtain rfl : _ = g := by simpa using hg
    refine ⟨⟨?_, fun hzero => absurd hzero hcur, fun hzero => absurd hzero hcur, ?_⟩, rfl, rfl, rfl⟩
    · have hbefore := hf.inFlight
      rw [hf.idle hsend] at hbefore
      simpa [sendFrame, FrameRelayHistory.inFlight] using hbefore
    · have hbefore := hf.returned
      simpa [sendFrame, isDeliveryAck] using hbefore
  gone := by simp

variable (choice : Choice)

section

variable {s : Loop} (hf : Tracked env s.history f)

include hf

/-- The part of the loop for a frame that is not on its way. -/
theorem lived_forwardFrame (hcur : curTick ≠ 0) (hsend : f.sendTime = 0) :
    Lived env f (forwardFrame env curTick choice f s).1 s.history (forwardFrame env curTick choice f s).2.history := by
  have hcases := forwardFrame_cases env curTick choice hsend s
  revert hcases
  generalize forwardFrame env curTick choice f s = result
  intro hcases
  cases hcases with
  | kept hyoung => exact lived_kept hf
  | removed droppedFrames events hevents =>
    rcases hevents with rfl | rfl
    · exact lived_removed hf (by simp) (by simp)
    · refine lived_removed hf (fun event hevent => ?_) (countP_answer_le _ _ _)
      obtain ⟨source, rfl⟩ := mem_answer hevent
      exact ⟨rfl, trivial, rfl⟩
  | sent node stats hyoung hstats hnode hroom => exact lived_sendFrame hf hcur hsend hnode hroom

/-- One round of the loop. -/
theorem lived_visitFrame (hcur : curTick ≠ 0) :
    Lived env f (visitFrame env curTick choice f s).1 s.history (visitFrame env curTick choice f s).2.history := by
  unfold visitFrame
  dsimp only
  split_ifs with hsend hwait
  · exact lived_kept hf
  · have hfail := lived_fail hf "TimeOut"
    exact hfail.trans (lived_forwardFrame choice (hfail.kept _ rfl).1 hcur rfl)
  · exact lived_forwardFrame choice hf hcur (not_not.mp hsend)

/-- A frame that is too old stays only if it was acknowledged by its node. -/
theorem visitFrame_old (hold : 2 * f.ttl < curTick - f.reciveTime) :
    (visitFrame env curTick choice f s).1 = none ↔ f.relayTime = 0 := by
  have hage : curTick - f.reciveTime ≥ f.ttl := by omega
  have hack : ackTimeOut curTick f = 0 := by
    unfold ackTimeOut
    dsimp only
    have hmod : f.ttl * 2 % 2 ^ 64 ≤ f.ttl * 2 := Nat.mod_le _ _
    rw [if_neg (by omega)]
  unfold visitFrame
  dsimp only
  by_cases hsend : f.sendTime ≠ 0
  · rw [if_pos hsend]
    have hcur : curTimeOut curTick f { s with sizeOnRoute := s.sizeOnRoute + f.frame.size } = 0 := by
      unfold curTimeOut
      split
      · rw [hack, Nat.min_zero]
      · rfl
    rw [hcur]
    by_cases hrelay : f.relayTime = 0
    · rw [if_neg (by simp [hrelay])]
      simp only [forwardFrame, timeOutFrame, SFrame.fail, ge_iff_le, hage, if_true, fadeFrame, true_or, hrelay]
    · rw [if_pos (Or.inl hrelay)]
      simp [hrelay]
  · rw [if_neg hsend]
    have hsend : f.sendTime = 0 := not_not.mp hsend
    simp only [forwardFrame, ge_iff_le, hage, if_true, fadeFrame, hsend, true_or, hf.relayTime hsend]

end

end Frames

section Process

variable {env : Env} {curTick : ℕ}

/-- What happens to the frames in the loop. -/
structure LoopOk (env : Env) (fs fs' : List SFrame) (history history' : List Event) : Prop where
  /-- The events are about the frames. -/
  events : ∃ events, history' = events ++ history ∧
    ∀ event ∈ events, receiptOf event ∈ fs.map SFrame.receipt ∧ SentOk env event ∧
      ∀ receipt, isLocalAck receipt event = false
  /-- The frames that stay agree with their history. -/
  kept : ∀ f ∈ fs', Tracked env history' f
  /-- Their receipts are among those before. -/
  receipts : (fs'.map SFrame.receipt).Sublist (fs.map SFrame.receipt)
  /-- The others are gone. -/
  gone : ∀ f ∈ fs, f.receipt ∉ fs'.map SFrame.receipt → Gone env history' f.receipt

theorem isLocalAck_eq_false {event : Event} {receipt : ℕ} (h : receiptOf event = receipt)
    (hack : isLocalAck receipt event = false) (receipt' : ℕ) : isLocalAck receipt' event = false := by
  cases event with
  | relayRes r node error =>
    cases error with
    | none => simp_all [isLocalAck, receiptOf]
    | some error => rfl
  | _ => rfl

section

variable (hcur : curTick ≠ 0) (choice : ℕ → Choice) {fs : List SFrame} {s : Loop}
  (hfs : ∀ f ∈ fs, Tracked env s.history f) (hnodup : (fs.map SFrame.receipt).Nodup)

include hcur choice hfs hnodup

/-- The loop over the frames. -/
theorem visitFrames_history : LoopOk env fs (visitFrames env curTick choice fs s).1 s.history
      (visitFrames env curTick choice fs s).2.history := by
  induction fs generalizing s with
  | nil => exact ⟨⟨[], rfl, by simp⟩, by simp [visitFrames], by simp [visitFrames], by simp⟩
  | cons f fs ih =>
    rw [List.map_cons, List.nodup_cons] at hnodup
    obtain ⟨hfresh, hnodup⟩ := hnodup
    have hlived : Lived env f _ s.history _ :=
      lived_visitFrame (choice f.receipt) (hfs f List.mem_cons_self) hcur
    rw [visitFrames]
    dsimp only
    generalize visitFrame env curTick (choice f.receipt) f s = result at hlived
    obtain ⟨f', s'⟩ := result
    dsimp only at hlived ⊢
    obtain ⟨events, hhistory, hevents⟩ := hlived.events
    have hother : ∀ receipt, receipt ≠ f.receipt → ∀ event ∈ events, receiptOf event ≠ receipt :=
      fun receipt hne event hevent heq => hne (heq.symm.trans (hevents event hevent).1)
    have hrest := ih (s := s') (fun g hg => by
      rw [hhistory]
      refine (hfs g (List.mem_cons_of_mem _ hg)).append (hother _ fun heq => hfresh ?_)
      rw [← heq]
      exact List.mem_map_of_mem hg) hnodup
    generalize visitFrames env curTick choice fs s' = rest at hrest
    obtain ⟨fs', s''⟩ := rest
    dsimp only at hrest ⊢
    obtain ⟨events', hhistory', hevents'⟩ := hrest.events
    have hother' : ∀ event ∈ events', receiptOf event ≠ f.receipt := by
      intro event hevent heq
      rw [← heq] at hfresh
      exact hfresh (hevents' event hevent).1
    have hreceipts : ∀ g ∈ f', g.receipt = f.receipt := fun g hg => (hlived.kept g hg).2.1
    refine ⟨⟨events' ++ events, ?_, fun event hevent => ?_⟩, fun g hg => ?_, ?_, fun g hg hgone => ?_⟩
    · rw [hhistory', hhistory, List.append_assoc]
    · rcases List.mem_append.mp hevent with hevent | hevent
      · obtain ⟨hmem, hok, hack⟩ := hevents' event hevent
        exact ⟨List.mem_cons_of_mem _ hmem, hok, hack⟩
      · obtain ⟨heq, hok, hack⟩ := hevents event hevent
        exact ⟨by rw [heq]; exact List.mem_cons_self, hok, isLocalAck_eq_false heq hack⟩
    · rcases List.mem_append.mp hg with hg | hg
      · have hg : g ∈ f' := by simpa using hg
        rw [hhistory']
        refine (hlived.kept g hg).1.append ?_
        rw [hreceipts g hg]
        exact hother'
      · exact hrest.kept g hg
    · cases f' with
      | none => exact hrest.receipts.trans (List.sublist_cons_self _ _)
      | some g =>
        rw [Option.toList_some, List.singleton_append, List.map_cons, List.map_cons, hreceipts g rfl]
        exact hrest.receipts.cons_cons _
    · rw [List.map_append, List.mem_append, not_or] at hgone
      rcases List.mem_cons.mp hg with rfl | hg
      · rw [hhistory']
        refine (hlived.gone ?_).append hother'
        cases f' with
        | none => rfl
        | some k => exact absurd (by simpa using (hreceipts k rfl).symm) hgone.1
      · exact hrest.gone g hg hgone.2

/-- The loop leaves a frame that is too old exactly if its node has acknowledged it. -/
theorem visitFrames_old : (∀ f ∈ (visitFrames env curTick choice fs s).1, curTick - f.reciveTime ≤ 2 * f.ttl) ↔
      ∀ f ∈ fs, 2 * f.ttl < curTick - f.reciveTime → f.relayTime = 0 := by
  induction fs generalizing s with
  | nil => simp [visitFrames]
  | cons f fs ih =>
    rw [List.map_cons, List.nodup_cons] at hnodup
    obtain ⟨hfresh, hnodup⟩ := hnodup
    have hf := hfs f List.mem_cons_self
    have hlived : Lived env f _ s.history _ := lived_visitFrame (choice f.receipt) hf hcur
    have hold : 2 * f.ttl < curTick - f.reciveTime →
        ((visitFrame env curTick (choice f.receipt) f s).1 = none ↔ f.relayTime = 0) :=
      visitFrame_old (choice f.receipt) hf
    rw [visitFrames]
    dsimp only
    generalize visitFrame env curTick (choice f.receipt) f s = result at hlived hold
    obtain ⟨f', s'⟩ := result
    dsimp only at hlived hold ⊢
    obtain ⟨events, hhistory, hevents⟩ := hlived.events
    have hrest := ih (s := s') (fun g hg => by
      rw [hhistory]
      refine (hfs g (List.mem_cons_of_mem _ hg)).append fun event hevent heq => hfresh ?_
      rw [(hevents event hevent).1] at heq
      rw [heq]
      exact List.mem_map_of_mem hg) hnodup
    rw [List.forall_mem_append, List.forall_mem_cons, hrest]
    refine and_congr_left fun _ => ?_
    constructor
    · intro hyoung hlate
      by_contra hrelay
      cases f' with
      | none => exact hrelay ((hold hlate).mp rfl)
      | some g =>
        obtain ⟨-, -, hrecive, httl⟩ := hlived.kept g rfl
        have hg := hyoung g (by simp)
        rw [hrecive, httl] at hg
        omega
    · intro hrelay g hg
      have hg : g ∈ f' := by simpa using hg
      obtain ⟨-, -, hrecive, httl⟩ := hlived.kept g hg
      rw [hrecive, httl]
      by_contra hlate
      have hnone := (hold (by omega)).mpr (hrelay (by omega))
      rw [hnone] at hg
      cases hg

end

end Process

section Runs

variable {env : Env} {s : CFrameRelay}

/-- The frames of a relay and its history agree. -/
structure RelayOk (env : Env) (s : CFrameRelay) : Prop where
  /-- The frames that are held. -/
  tracked : ∀ f ∈ s.frames, Tracked env s.history f
  /-- No receipt is held twice. -/
  nodup : (s.frames.map SFrame.receipt).Nodup
  /-- The frames that are not held. -/
  gone : ∀ receipt, receipt ∉ s.frames.map SFrame.receipt → Gone env s.history receipt
  /-- The receipts held were given. -/
  receipts : ∀ f ∈ s.frames, f.receipt < s.receipts
  /-- Events are about receipts that were given. -/
  events : ∀ event ∈ s.history, receiptOf event < s.receipts
  /-- Frames are sent to nodes that have not failed and whose window is not full. -/
  sent : ∀ event ∈ s.history, SentOk env event
  /-- A receipt is acknowledged once at most. -/
  localAcks : ∀ receipt, s.history.countP (isLocalAck receipt) ≤ 1

/-- What the history of such a relay shows. -/
theorem RelayOk.historyOk (h : RelayOk env s) : HistoryOk env s.history where
  inFlight := by
    intro receipt
    by_cases hheld : receipt ∈ s.frames.map SFrame.receipt
    · obtain ⟨f, hf, rfl⟩ := List.mem_map.mp hheld
      rw [(h.tracked f hf).inFlight]
      cases f.dest <;> simp
    · rw [(h.gone receipt hheld).inFlight]
      simp
  sent := h.sent
  localAcks := h.localAcks
  deliveryAcks := by
    intro receipt
    by_cases hheld : receipt ∈ s.frames.map SFrame.receipt
    · obtain ⟨f, hf, rfl⟩ := List.mem_map.mp hheld
      rw [(h.tracked f hf).returned]
      exact Nat.zero_le _
    · exact (h.gone receipt hheld).returned

theorem relayOk_new (env : Env) : RelayOk env CFrameRelay.new where
  tracked := by simp [CFrameRelay.new]
  nodup := by simp [CFrameRelay.new]
  gone := fun receipt _ => ⟨rfl, Nat.zero_le _⟩
  receipts := by simp [CFrameRelay.new]
  events := by simp [CFrameRelay.new]
  sent := by simp [CFrameRelay.new]
  localAcks := by simp [CFrameRelay.new]

section

variable (h : RelayOk env s)

include h

/-- Frames that lived on, and others that were only left as they are. -/
theorem RelayOk.of_loopOk {s' : CFrameRelay} (hloop : LoopOk env s.frames s'.frames s.history s'.history)
    (hreceipts : s'.receipts = s.receipts) : RelayOk env s' := by
  obtain ⟨events, hhistory, hevents⟩ := hloop.events
  have hheld : ∀ event ∈ events, receiptOf event < s.receipts := by
    intro event hevent
    obtain ⟨f, hf, heq⟩ := List.mem_map.mp (hevents event hevent).1
    rw [← heq]
    exact h.receipts f hf
  refine ⟨hloop.kept, hloop.receipts.nodup h.nodup, fun receipt hgone => ?_, fun f hf => ?_,
    fun event hevent => ?_, fun event hevent => ?_, fun receipt => ?_⟩
  · by_cases hbefore : receipt ∈ s.frames.map SFrame.receipt
    · obtain ⟨f, hf, rfl⟩ := List.mem_map.mp hbefore
      exact hloop.gone f hf hgone
    · rw [hhistory]
      refine (h.gone receipt hbefore).append fun event hevent heq => hbefore ?_
      rw [← heq]
      exact (hevents event hevent).1
  · obtain ⟨g, hg, heq⟩ := List.mem_map.mp (hloop.receipts.subset (List.mem_map_of_mem hf))
    rw [hreceipts, ← heq]
    exact h.receipts g hg
  · rw [hreceipts]
    rw [hhistory] at hevent
    rcases List.mem_append.mp hevent with hevent | hevent
    · exact hheld event hevent
    · exact h.events event hevent
  · rw [hhistory] at hevent
    rcases List.mem_append.mp hevent with hevent | hevent
    · exact (hevents event hevent).2.1
    · exact h.sent event hevent
  · rw [hhistory, List.countP_append, List.countP_eq_zero.mpr, zero_add]
    · exact h.localAcks receipt
    · intro event hevent
      simp [(hevents event hevent).2.2 receipt]

theorem relayOk_process {curTick : ℕ} (hcur : curTick ≠ 0) (tenth : Bool) (choice : ℕ → Choice) (connected : ℕ → Bool) :
    RelayOk env (process env curTick tenth choice connected s) :=
  h.of_loopOk (visitFrames_history (s := ⟨s.nodes, s.stats, 0, s.history⟩) hcur choice h.tracked h.nodup) rfl

/-- Nothing is recorded of a receipt that was not given. -/
theorem RelayOk.unknown : inFlight env s.receipts s.history = [] ∧
    s.history.countP (isDeliveryAck s.receipts) = 0 ∧ s.history.countP (isLocalAck s.receipts) = 0 := by
  have hother : ∀ event ∈ s.history, receiptOf event ≠ s.receipts :=
    fun event hevent => (h.events event hevent).ne
  have hflight : inFlight env s.receipts (s.history ++ []) = [] := inFlight_append hother
  have hdelivery : (s.history ++ []).countP (isDeliveryAck s.receipts) = 0 :=
    deliveryAcks_append hother
  rw [List.append_nil] at hflight hdelivery
  refine ⟨hflight, hdelivery, List.countP_eq_zero.mpr fun event hevent => ?_⟩
  have hne := hother event hevent
  cases event with
  | relayRes r node error => cases error <;> simp_all [isLocalAck, receiptOf]
  | _ => simp [isLocalAck]

/-- A receipt with what was answered to its source, whose frame may be held. -/
theorem relayOk_receipt {f : SFrame} (error : Option String)
    {held : List SFrame} (hheld : held = [] ∨ held = [f]) (hreceipt : f.receipt = s.receipts)
    (hsend : f.sendTime = 0) (hrelay : f.relayTime = 0) (hdest : f.dest = none) :
    RelayOk env { s with
      frames := s.frames ++ held
      receipts := s.receipts + 1
      history := answer f (Event.relayRes · · error) ++ s.history } := by
  obtain ⟨hflight, hdelivery, hlocal⟩ := h.unknown
  have hanswer : ∀ event ∈ answer f (Event.relayRes · · error),
      ∃ source, event = Event.relayRes s.receipts source error := by
    intro event hevent
    obtain ⟨source, rfl⟩ := mem_answer hevent
    exact ⟨source, by rw [hreceipt]⟩
  have hother : ∀ receipt, receipt ≠ s.receipts →
      ∀ event ∈ answer f (Event.relayRes · · error), receiptOf event ≠ receipt := by
    intro receipt hne event hevent
    obtain ⟨source, rfl⟩ := hanswer event hevent
    exact hne.symm
  have hnew : inFlight env s.receipts (answer f (Event.relayRes · · error) ++ s.history) = [] := by
    unfold answer
    cases f.source <;> simpa [inFlight] using hflight
  have hnewDelivery : (answer f (Event.relayRes · · error) ++ s.history).countP (isDeliveryAck s.receipts) = 0 := by
    unfold answer
    cases f.source <;> simpa [isDeliveryAck] using hdelivery
  have hsub : ∀ g ∈ held, g = f := by
    rcases hheld with rfl | rfl <;> simp
  refine ⟨fun g hg => ?_, ?_, fun receipt hgone => ?_, fun g hg => ?_, fun event hevent => ?_,
    fun event hevent => ?_, fun receipt => ?_⟩
  · rcases List.mem_append.mp hg with hg | hg
    · exact (h.tracked g hg).append (hother _ (h.receipts g hg).ne)
    · obtain rfl := hsub g hg
      exact ⟨by rw [hreceipt, hnew, hdest]; rfl, fun _ => hdest, fun _ => hrelay, by rw [hreceipt]; exact hnewDelivery⟩
  · rw [List.map_append, List.nodup_append]
    refine ⟨h.nodup, ?_, fun receipt hbefore receipt' hnow => ?_⟩
    · rcases hheld with rfl | rfl <;> simp
    · obtain ⟨g, hg, rfl⟩ := List.mem_map.mp hbefore
      obtain ⟨g', hg', rfl⟩ := List.mem_map.mp hnow
      rw [hsub g' hg', hreceipt]
      exact (h.receipts g hg).ne
  · rw [List.map_append, List.mem_append, not_or] at hgone
    by_cases hnow : receipt = s.receipts
    · rw [hnow]
      exact ⟨hnew, by rw [hnewDelivery]; exact Nat.zero_le _⟩
    · exact (h.gone receipt hgone.1).append (hother receipt hnow)
  · rcases List.mem_append.mp hg with hg | hg
    · exact Nat.lt_succ_of_lt (h.receipts g hg)
    · rw [hsub g hg, hreceipt]
      exact Nat.lt_succ_self _
  · rcases List.mem_append.mp hevent with hevent | hevent
    · obtain ⟨source, rfl⟩ := hanswer event hevent
      exact Nat.lt_succ_self _
    · exact Nat.lt_succ_of_lt (h.events event hevent)
  · rcases List.mem_append.mp hevent with hevent | hevent
    · obtain ⟨source, rfl⟩ := hanswer event hevent
      exact trivial
    · exact h.sent event hevent
  · rw [List.countP_append]
    by_cases hnow : receipt = s.receipts
    · rw [hnow, hlocal]
      exact countP_answer_le _ _ _
    · rw [List.countP_eq_zero.mpr, zero_add]
      · exact h.localAcks receipt
      · intro event hevent
        obtain ⟨source, rfl⟩ := hanswer event hevent
        cases error with
        | none => simpa [isLocalAck] using Ne.symm hnow
        | some error => simp [isLocalAck]

theorem relayOk_relay (curTick : ℕ) (frame : Frame) (ttl : ℕ)
    (source : Option ℕ) : RelayOk env (relay curTick frame ttl source s) := by
  unfold relay
  dsimp only
  split_ifs with hempty
  · have hok := relayOk_receipt h (f := ⟨s.receipts, frame, curTick, ttl, 0, 0, none, source, empty⟩)
      (some "NoNodes") (Or.inl rfl) rfl rfl rfl rfl
    rwa [List.append_nil] at hok
  · exact relayOk_receipt h none (Or.inr rfl) rfl rfl rfl rfl

end

/-- The first part of `Ack` records nothing. -/
theorem tracked_ackRelayed (curTick : ℕ) {f : SFrame} (hf : Tracked env s.history f) (ack' : Ack) :
    Tracked env s.history (ackRelayed curTick ack' f s).1 ∧ (ackRelayed curTick ack' f s).1.receipt = f.receipt ∧
      (ackRelayed curTick ack' f s).1.reciveTime = f.reciveTime ∧
      (ackRelayed curTick ack' f s).1.ttl = f.ttl ∧
      (ackRelayed curTick ack' f s).2.history = s.history := by
  unfold ackRelayed
  by_cases hpending : f.sendTime ≠ 0 ∧ f.relayTime = 0
  · rw [if_pos hpending]
    exact ⟨⟨hf.inFlight, hf.idle, fun hzero => absurd hzero hpending.1, hf.returned⟩, rfl, rfl, rfl, rfl⟩
  · rw [if_neg hpending]
    exact ⟨hf, rfl, rfl, rfl, rfl⟩

/-- The second part of `Ack`. -/
theorem lived_ackDelivered {f : SFrame} (hf : Tracked env s.history f) (ack' : Ack)
    (bDelivery : Bool) : Lived env f (ackDelivered env ack' bDelivery f s).1 s.history
      (ackDelivered env ack' bDelivery f s).2.history := by
  unfold ackDelivered
  cases bDelivery with
  | true =>
    refine lived_removed hf (fun event hevent => ?_) (countP_answer_le _ _ _)
    obtain ⟨source, rfl⟩ := mem_answer hevent
    exact ⟨rfl, trivial, rfl⟩
  | false =>
    cases ack'.err with
    | none => exact lived_kept hf
    | some error => exact lived_fail hf error

/-- `Ack` keeps the frames and the history together. -/
theorem relayOk_ack (h : RelayOk env s) (curTick : ℕ) (ack' : Ack) (bDelivery : Bool) :
    RelayOk env (ack env curTick ack' bDelivery s).2 := by
  unfold FrameRelay.ack
  have hsplit := List.span_eq_takeWhile_dropWhile (p := fun f => !ack'.isFor f) s.frames
  have happend : s.frames.takeWhile (fun f => !ack'.isFor f) ++
      s.frames.dropWhile (fun f => !ack'.isFor f) = s.frames := List.takeWhile_append_dropWhile
  rw [hsplit]
  cases hdrop : s.frames.dropWhile fun f => !ack'.isFor f with
  | nil => exact h
  | cons f after =>
    rw [hdrop] at happend
    generalize s.frames.takeWhile (fun f => !ack'.isFor f) = before at happend
    dsimp only
    have hmem : ∀ g, g ∈ before ∨ g = f ∨ g ∈ after ↔ g ∈ s.frames := by
      intro g
      rw [← happend, List.mem_append, List.mem_cons]
    have hnodup := h.nodup
    rw [← happend, List.map_append, List.map_cons, List.nodup_middle, List.nodup_cons] at hnodup
    obtain ⟨hfresh, -⟩ := hnodup
    obtain ⟨hrelayed, hreceipt, hrecive, httl, hhistory⟩ :=
      tracked_ackRelayed curTick (h.tracked f ((hmem f).mp (Or.inr (Or.inl rfl)))) ack'
    rw [← hhistory] at hrelayed
    have hlived := lived_ackDelivered hrelayed ack' bDelivery
    have hframe : (ackRelayed curTick ack' f s).2.receipts = s.receipts := by
      unfold ackRelayed
      split_ifs <;> rfl
    have hsame : (ackDelivered env ack' bDelivery (ackRelayed curTick ack' f s).1
        (ackRelayed curTick ack' f s).2).2.receipts = s.receipts := by
      rw [← hframe]
      unfold ackDelivered
      cases bDelivery with
      | true => rfl
      | false => cases ack'.err <;> rfl
    generalize ackDelivered env ack' bDelivery (ackRelayed curTick ack' f s).1
      (ackRelayed curTick ack' f s).2 = result at hlived hsame
    generalize ackRelayed curTick ack' f s = relayed at hrelayed hreceipt hrecive httl hhistory hlived
    obtain ⟨f', s'⟩ := result
    dsimp only at hlived hsame ⊢
    obtain ⟨events, hevents', hevents⟩ := hlived.events
    rw [hreceipt] at hevents
    rw [hhistory] at hevents'
    have hreceipts : ∀ g ∈ f', g.receipt = f.receipt :=
      fun g hg => ((hlived.kept g hg).2.1).trans hreceipt
    have hother : ∀ g, g ∈ before ∨ g ∈ after → Tracked env s'.history g := by
      intro g hg
      rw [hevents']
      refine (h.tracked g ((hmem g).mp (hg.imp_right Or.inr))).append fun event hevent heq => ?_
      rw [(hevents event hevent).1] at heq
      refine hfresh ?_
      rw [heq, List.mem_append]
      exact hg.imp List.mem_map_of_mem List.mem_map_of_mem
    refine h.of_loopOk ⟨⟨events, hevents', fun event hevent => ?_⟩, fun g hg => ?_, ?_, fun g hg hgone => ?_⟩ hsame
    · obtain ⟨heq, hok, hack⟩ := hevents event hevent
      refine ⟨?_, hok, isLocalAck_eq_false heq hack⟩
      rw [heq]
      exact List.mem_map_of_mem ((hmem f).mp (Or.inr (Or.inl rfl)))
    · rcases List.mem_append.mp hg with hg | hg
      · rcases List.mem_append.mp hg with hg | hg
        · exact hother g (Or.inl hg)
        · exact (hlived.kept g (by simpa using hg)).1
      · exact hother g (Or.inr hg)
    · rw [← happend, List.append_assoc, List.map_append, List.map_append, List.map_append, List.map_cons]
      refine List.Sublist.append_left ?_ _
      cases f' with
      | none => exact List.sublist_cons_self _ _
      | some g =>
        rw [Option.toList_some, List.map_singleton, hreceipts g rfl]
        exact List.Sublist.refl _
    · rw [List.append_assoc, List.map_append, List.map_append, List.mem_append, List.mem_append,
        not_or, not_or] at hgone
      obtain ⟨hbefore, hnow, hafter⟩ := hgone
      rcases (hmem g).mpr hg with hg | rfl | hg
      · exact absurd (List.mem_map_of_mem hg) hbefore
      · rw [← hreceipt]
        refine hlived.gone ?_
        cases f' with
        | none => rfl
        | some k => exact absurd (by simpa using (hreceipts k rfl).symm) hnow
      · exact absurd (List.mem_map_of_mem hg) hafter

/-- `Add` keeps the frames and the history together. -/
theorem relayOk_add (h : RelayOk env s) (pNode : ℕ) : RelayOk env (add env pNode s) := by
  unfold add
  split_ifs with hthere
  · exact h
  · cases hfind : s.nodes.entries.find? fun e => env.getID e.1 = env.getID pNode with
    | none => exact ⟨h.tracked, h.nodup, h.gone, h.receipts, h.events, h.sent, h.localAcks⟩
    | some e =>
      have hsame : env.getID e.1 = env.getID pNode := by simpa using List.find?_some hfind
      have hreceipts : (s.frames.map (retarget e.1 pNode)).map SFrame.receipt =
          s.frames.map SFrame.receipt := by
        rw [List.map_map]
        refine List.map_congr_left fun f _ => ?_
        simp only [Function.comp, retarget]
        split_ifs <;> rfl
      refine ⟨fun f hf => ?_, ?_, fun receipt hgone => ?_, fun f hf => ?_, h.events, h.sent, h.localAcks⟩
      · obtain ⟨g, hg, rfl⟩ := List.mem_map.mp hf
        have htracked := h.tracked g hg
        unfold retarget
        split_ifs with hdest
        · refine ⟨?_, fun hzero => ?_, htracked.relayTime, htracked.returned⟩
          · have hflight := htracked.inFlight
            rw [hdest] at hflight
            simpa [hsame] using hflight
          · have hnone := htracked.idle hzero
            rw [hdest] at hnone
            cases hnone
        · exact htracked
      · rw [hreceipts]
        exact h.nodup
      · rw [hreceipts] at hgone
        exact h.gone receipt hgone
      · obtain ⟨g, hg, rfl⟩ := List.mem_map.mp hf
        have hg := h.receipts g hg
        unfold retarget
        split_ifs <;> exact hg

/-- Every operation at a time that is not zero keeps the frames and the history together. -/
theorem relayOk_step {s : State} (h : RelayOk env s.relay) (hcur : s.curTick ≠ 0) (op : Op) :
    RelayOk env (step env s op).relay ∧ (step env s op).curTick ≠ 0 := by
  cases op with
  | wait duration => exact ⟨h, (Nat.add_pos_left (Nat.pos_of_ne_zero hcur) _).ne'⟩
  | allowDelay bAllow =>
    exact ⟨⟨h.tracked, h.nodup, h.gone, h.receipts, h.events, h.sent, h.localAcks⟩, hcur⟩
  | process tenth choice connected => exact ⟨relayOk_process h hcur tenth choice connected, hcur⟩
  | relay frame ttl source => exact ⟨relayOk_relay h s.curTick frame ttl source, hcur⟩
  | ack ack' bDelivery => exact ⟨relayOk_ack h s.curTick ack' bDelivery, hcur⟩
  | add pNode => exact ⟨relayOk_add h pNode, hcur⟩
  | remove pNode =>
    exact ⟨⟨h.tracked, h.nodup, h.gone, h.receipts, h.events, h.sent, h.localAcks⟩, hcur⟩

theorem relayOk_run {s : State} (h : RelayOk env s.relay) (hcur : s.curTick ≠ 0) (ops : List Op) :
    RelayOk env (run env s ops).relay ∧ (run env s ops).curTick ≠ 0 := by
  induction ops generalizing s with
  | nil => exact ⟨h, hcur⟩
  | cons op ops ih =>
    have hstep := relayOk_step h hcur op
    exact ih hstep.1 hstep.2

/-- In every run a frame is on its way to one node at most, goes only to nodes that have
not failed and have room, and is acknowledged once at most; and `Process` leaves no frame
that is too old exactly when no such frame was acknowledged by its node. -/
theorem run_frames (env : Env) (curTick : ℕ) (hcur : curTick ≠ 0) (ops : List Op) :
    HistoryOk env (run env ⟨curTick, CFrameRelay.new⟩ ops).relay.history ∧ ∀ tenth choice connected,
        ((∀ f ∈ (step env (run env ⟨curTick, CFrameRelay.new⟩ ops) (Op.process tenth choice connected)).relay.frames,
          (run env ⟨curTick, CFrameRelay.new⟩ ops).curTick - f.reciveTime ≤ 2 * f.ttl) ↔
        ∀ f ∈ (run env ⟨curTick, CFrameRelay.new⟩ ops).relay.frames,
          2 * f.ttl < (run env ⟨curTick, CFrameRelay.new⟩ ops).curTick - f.reciveTime → f.relayTime = 0) := by
  obtain ⟨hok, htime⟩ := relayOk_run (s := ⟨curTick, CFrameRelay.new⟩) (relayOk_new env) hcur ops
  exact ⟨hok.historyOk, fun tenth choice connected =>
    visitFrames_old htime choice hok.tracked hok.nodup⟩

/-- A relay that starts at a time that is not zero. -/
theorem run_frames_one : HistoryOk ⟨id, 250, 1000, 64⟩
    (run ⟨id, 250, 1000, 64⟩ ⟨1, CFrameRelay.new⟩ [Op.add 7]).relay.history :=
  (run_frames ⟨id, 250, 1000, 64⟩ 1 (by decide) [Op.add 7]).1

/-- A frame that its node has acknowledged, and whose delivery is not, is held for ever. -/
theorem run_leaks : ∃ f ∈ (run ⟨id, 250, 1000, 64⟩ ⟨1, CFrameRelay.new⟩
      [Op.add 7, Op.relay ⟨1, 2, 3, 100⟩ 3000 (some 5), Op.process false (fun _ => ⟨0, 0, true, false⟩) fun _ => true,
        Op.ack ⟨1, 2, 3, none⟩ false, Op.wait 1000000,
        Op.process true (fun _ => ⟨0, 0, true, false⟩) fun _ => true]).relay.frames,
    2 * f.ttl < 1000001 - f.reciveTime := by
  refine ⟨_, List.mem_cons_self, ?_⟩
  decide

end Runs

end NeoLoader.FrameRelayHistory
