import NeoLoader.FrameRelay

/-!
# Counting the pending frames of a relay

The relay as a whole and each of its nodes count the frames that were sent and not yet
acknowledged. Each way a frame takes changes the counters as it changes the frame, and
only a node that is added anew while frames sent to it before are still pending starts
with a count that is too low.
-/

namespace NeoLoader.FrameRelayCounters

open KeyMap KeyMap.OrderedMap RouteStats FrameRelay

/-- A frame was sent and is not acknowledged. -/
def pending (f : SFrame) : Bool := f.sendTime ≠ 0 ∧ f.relayTime = 0

/-- A frame is pending at a node. -/
def pendingAt (node : ℕ) (f : SFrame) : Bool := pending f && (f.dest == some node)

/-- What a node counts as pending. -/
def nodePending (nodes : OrderedMap ℕ CRelayStats) (node : ℕ) : Option ℤ :=
  (nodes.get node).map fun stats => stats.stats.pendingFrames

/-- A frame is acknowledged only after it was sent. -/
def FrameOk (f : SFrame) : Prop := f.sendTime = 0 → f.relayTime = 0

/-- The counters agree with the frames. -/
structure CountersOk (s : CFrameRelay) : Prop where
  /-- The count of the relay. -/
  total : s.stats.pendingFrames = s.frames.countP pending
  /-- The count of each node. -/
  nodes : ∀ node stats, s.nodes.get node = some stats → stats.stats.pendingFrames = s.frames.countP (pendingAt node)
  /-- Acknowledged frames were sent. -/
  frames : ∀ f ∈ s.frames, FrameOk f

/-- When an operation keeps the counters: the time is not zero, and a node that is added
anew has no pending frames. -/
def Meets (s : State) : Op → Prop
  | .process _ _ _ | .ack _ _ => s.curTick ≠ 0
  | .add pNode => s.relay.nodes.get pNode = none → ∀ f ∈ s.relay.frames, pendingAt pNode f = false
  | _ => True

section Frames

/-- What happens to a frame is what happens to the counters. -/
structure Counted (f : SFrame) (f' : Option SFrame) (stats stats' : SRelayStats)
    (nodes nodes' : OrderedMap ℕ CRelayStats) : Prop where
  /-- The count of the relay. -/
  total : stats'.pendingFrames + [f].countP pending = stats.pendingFrames + f'.toList.countP pending
  /-- The count of each node. -/
  nodes : ∀ node, nodePending nodes' node = (nodePending nodes node).map fun n : ℤ =>
    n - [f].countP (pendingAt node) + f'.toList.countP (pendingAt node)
  /-- Acknowledged frames were sent. -/
  ok : ∀ f'' ∈ f', FrameOk f''

variable {f g : SFrame} {h : Option SFrame} {stats stats' stats'' : SRelayStats}
  {nodes nodes' nodes'' : OrderedMap ℕ CRelayStats}

/-- Counters that stay, with a frame that is as pending as before. -/
theorem counted_of_same (hok : ∀ f' ∈ h, FrameOk f') (hpending : h.toList.countP pending = [f].countP pending)
    (hat : ∀ node, h.toList.countP (pendingAt node) = [f].countP (pendingAt node))
    (hstats : stats'.pendingFrames = stats.pendingFrames)
    (hnodes : ∀ node, nodePending nodes' node = nodePending nodes node) :
    Counted f h stats stats' nodes nodes' where
  total := by rw [hpending, hstats]
  nodes := by
    intro node
    rw [hnodes, hat]
    simp
  ok := hok

/-- One change of a frame after the other. -/
theorem Counted.trans (h1 : Counted f (some g) stats stats' nodes nodes')
    (h2 : Counted g h stats' stats'' nodes' nodes'') : Counted f h stats stats'' nodes nodes'' where
  total := by
    have htotal1 := h1.total
    have htotal2 := h2.total
    simp only [Option.toList_some] at htotal1
    omega
  nodes := by
    intro node
    rw [h2.nodes, h1.nodes, Option.map_map]
    congr 1
    funext n
    simp only [Function.comp, Option.toList_some]
    omega
  ok := h2.ok

/-- The counts of the nodes after one of them was changed. -/
theorem nodePending_onNode (nodes : OrderedMap ℕ CRelayStats) (dest : Option ℕ)
    (change : CRelayStats → CRelayStats) (d : ℤ)
    (hchange : ∀ stats, (change stats).stats.pendingFrames = stats.stats.pendingFrames + d)
    (node : ℕ) : nodePending (onNode nodes dest change) node =
      (nodePending nodes node).map fun n : ℤ => n + if dest = some node then d else 0 := by
  cases dest with
  | none => simp [onNode, nodePending, Function.comp_def]
  | some target =>
    by_cases hnode : node = target
    · subst hnode
      simp [onNode, nodePending, Function.comp_def, hchange]
    · have hne : ¬ target = node := fun heq => hnode heq.symm
      simp [onNode, nodePending, get_modify_of_ne nodes change hnode, hne, Function.comp_def]

theorem countP_pendingAt (node : ℕ) (hf : pending f = true) :
    ([f].countP (pendingAt node) : ℤ) = if f.dest = some node then 1 else 0 := by
  by_cases hdest : f.dest = some node
  · simp [pendingAt, hf, hdest]
  · simp [pendingAt, hf, hdest]

theorem countP_pendingAt_of_not (node : ℕ) (hf : pending f = false) : [f].countP (pendingAt node) = 0 := by
  simp [pendingAt, hf]

/-- A pending frame that stops to be one is taken from the counters. -/
theorem counted_stop (hf : pending f = true) (hg : pending g = false) (hok : FrameOk g)
    (change : CRelayStats → CRelayStats)
    (hchange : ∀ stats, (change stats).stats.pendingFrames = stats.stats.pendingFrames - 1)
    (hstats : stats'.pendingFrames = stats.pendingFrames - 1) :
    Counted f (some g) stats stats' nodes (onNode nodes f.dest change) where
  total := by
    simp [hf, hg, hstats]
  nodes := by
    intro node
    rw [nodePending_onNode nodes f.dest change (-1) (fun stats => by rw [hchange]; ring)]
    congr 1
    funext n
    rw [Option.toList_some, countP_pendingAt node hf, countP_pendingAt_of_not node hg]
    split_ifs <;> simp only [Nat.cast_zero] <;> ring
  ok := by simpa using hok

theorem pending_fail (env : Env) (error : String) (f : SFrame) :
    pending (f.fail env error) = false ∧ FrameOk (f.fail env error) :=
  ⟨by simp [pending, SFrame.fail], fun _ => rfl⟩

variable {env : Env} {curTick : ℕ} {choice : Choice} {s : Loop}

theorem counted_timeOutFrame (hf : pending f = true) :
    Counted f (some (timeOutFrame env f s).1) s.stats (timeOutFrame env f s).2.stats s.nodes
      (timeOutFrame env f s).2.nodes :=
  counted_stop hf (pending_fail env _ f).1 (pending_fail env _ f).2 _ (fun _ => rfl) rfl

theorem counted_removed (hf : pending f = false) (hstats : stats'.pendingFrames =
    stats.pendingFrames) : Counted f none stats stats' nodes nodes :=
  counted_of_same (by simp) (by simp [hf]) (fun node => by simp [pendingAt, hf]) hstats fun _ => rfl

theorem counted_kept (hf : FrameOk f) : Counted f (some f) stats stats nodes nodes :=
  counted_of_same (by simpa using hf) rfl (fun _ => rfl) rfl fun _ => rfl

/-- A frame that is sent. -/
theorem counted_sendFrame (hcur : curTick ≠ 0) (hsend : f.sendTime = 0) (hf : FrameOk f)
    (node : ℕ) (stats : CRelayStats) :
    Counted f (some (sendFrame curTick f node stats s).1) s.stats (sendFrame curTick f node stats s).2.stats s.nodes
      (sendFrame curTick f node stats s).2.nodes where
  total := by
    simp [sendFrame, pending, hsend, hcur, hf hsend]
  nodes := by
    intro node'
    have hsent : pending (sendFrame curTick f node stats s).1 = true := by
      simp [sendFrame, pending, hcur, hf hsend]
    have hidle : pending f = false := by simp [pending, hsend]
    have hnodes : (sendFrame curTick f node stats s).2.nodes =
        onNode s.nodes (some node) (CRelayStats.route CRouteStats.framePending) := rfl
    rw [hnodes, nodePending_onNode _ _ _ 1 (fun _ => rfl), Option.toList_some,
      countP_pendingAt node' hsent, countP_pendingAt_of_not node' hidle]
    congr 1
    funext n
    simp [sendFrame]
  ok := by
    intro f' hf'
    obtain rfl : _ = f' := by simpa using hf'
    exact fun hzero => absurd hzero hcur

/-- The part of the loop for a frame that is not on its way. -/
theorem counted_forwardFrame (hcur : curTick ≠ 0) (hsend : f.sendTime = 0) (hf : FrameOk f) :
    Counted f (forwardFrame env curTick choice f s).1 s.stats (forwardFrame env curTick choice f s).2.stats s.nodes
      (forwardFrame env curTick choice f s).2.nodes := by
  have hidle : pending f = false := by simp [pending, hsend]
  have hcases := forwardFrame_cases env curTick choice hsend s
  revert hcases
  generalize forwardFrame env curTick choice f s = result
  intro hcases
  cases hcases with
  | kept hyoung => exact counted_kept hf
  | removed droppedFrames events hevents => exact counted_removed hidle rfl
  | sent node stats hyoung hstats hnode hroom => exact counted_sendFrame hcur hsend hf node stats

/-- One round of the loop. -/
theorem counted_visitFrame (hcur : curTick ≠ 0) (hf : FrameOk f) :
    Counted f (visitFrame env curTick choice f s).1 s.stats (visitFrame env curTick choice f s).2.stats s.nodes
      (visitFrame env curTick choice f s).2.nodes := by
  unfold visitFrame
  dsimp only
  split_ifs with hsend hwait
  · exact counted_kept hf
  · have hpending : pending f = true := by
      have hrelay : f.relayTime = 0 := by tauto
      simp [pending, hsend, hrelay]
    exact (counted_timeOutFrame hpending).trans (counted_forwardFrame hcur rfl (pending_fail env _ f).2)
  · exact counted_forwardFrame hcur (not_not.mp hsend) hf

end Frames

section Process

/-- The loop over the frames: the counters agree before it with the frames that were
visited and those that were not, and so they do after it. -/
theorem visitFrames_counters (env : Env) {curTick : ℕ} (hcur : curTick ≠ 0)
    (choice : ℕ → Choice) {fs : List SFrame} (s : Loop) (hok : ∀ f ∈ fs, FrameOk f) :
    (visitFrames env curTick choice fs s).2.stats.pendingFrames + fs.countP pending =
        s.stats.pendingFrames + (visitFrames env curTick choice fs s).1.countP pending ∧
      (∀ node, nodePending (visitFrames env curTick choice fs s).2.nodes node =
        (nodePending s.nodes node).map fun n : ℤ => n - fs.countP (pendingAt node) +
          (visitFrames env curTick choice fs s).1.countP (pendingAt node)) ∧
      ∀ f ∈ (visitFrames env curTick choice fs s).1, FrameOk f := by
  induction fs generalizing s with
  | nil => simp [visitFrames]
  | cons f fs ih =>
    have hvisit : Counted f (visitFrame env curTick (choice f.receipt) f s).1 s.stats
        (visitFrame env curTick (choice f.receipt) f s).2.stats s.nodes
        (visitFrame env curTick (choice f.receipt) f s).2.nodes :=
      counted_visitFrame hcur (hok f List.mem_cons_self)
    have hrest := ih (visitFrame env curTick (choice f.receipt) f s).2 fun f' hf' => hok f' (List.mem_cons_of_mem _ hf')
    rw [visitFrames]
    dsimp only
    refine ⟨?_, fun node => ?_, ?_⟩
    · have htotal := hvisit.total
      have htotal' := hrest.1
      have hcons : (f :: fs).countP pending = [f].countP pending + fs.countP pending := by
        rw [← List.singleton_append, List.countP_append]
      rw [List.countP_append, hcons]
      push_cast
      omega
    · have hcons : (f :: fs).countP (pendingAt node) = [f].countP (pendingAt node) + fs.countP (pendingAt node) := by
        rw [← List.singleton_append, List.countP_append]
      rw [hrest.2.1 node, hvisit.nodes node, Option.map_map, List.countP_append, hcons]
      congr 1
      funext n
      simp only [Function.comp]
      push_cast
      ring
    · intro f' hf'
      rcases List.mem_append.mp hf' with hf' | hf'
      · exact hvisit.ok f' (by simpa using hf')
      · exact hrest.2.2 f' hf'

end Process

section Runs

variable {env : Env} {s : CFrameRelay}

theorem nodePending_eq {nodes : OrderedMap ℕ CRelayStats} {node : ℕ} {stats : CRelayStats}
    (h : nodes.get node = some stats) : nodePending nodes node = some stats.stats.pendingFrames := by
  rw [nodePending, h]
  rfl

theorem CountersOk.nodePending (h : CountersOk s) {node : ℕ} {n : ℤ}
    (hn : nodePending s.nodes node = some n) : n = s.frames.countP (pendingAt node) := by
  obtain ⟨stats, hstats, rfl⟩ := Option.map_eq_some_iff.mp hn
  exact h.nodes node stats hstats

theorem countersOk_new : CountersOk CFrameRelay.new where
  total := rfl
  nodes := by
    intro node stats hstats
    rw [show CFrameRelay.new.nodes.get node = none from rfl] at hstats
    cases hstats
  frames := by
    intro f hf
    exact absurd hf List.not_mem_nil

/-- Frames that change together with the counters. -/
theorem CountersOk.of_counted (h : CountersOk s) {s' : CFrameRelay}
    (htotal : s'.stats.pendingFrames + s.frames.countP pending = s.stats.pendingFrames + s'.frames.countP pending)
    (hnodes : ∀ node n', FrameRelayCounters.nodePending s'.nodes node = some n' →
      ∃ n, FrameRelayCounters.nodePending s.nodes node = some n ∧
        n' = n - s.frames.countP (pendingAt node) + s'.frames.countP (pendingAt node))
    (hframes : ∀ f ∈ s'.frames, FrameOk f) : CountersOk s' where
  total := by
    have hbefore := h.total
    omega
  nodes := by
    intro node stats hstats
    obtain ⟨n, hn, hn'⟩ := hnodes node _ (nodePending_eq hstats)
    have hbefore := h.nodePending hn
    omega
  frames := hframes

/-- `Process` keeps the counters. -/
theorem countersOk_process (h : CountersOk s) {curTick : ℕ} (hcur : curTick ≠ 0) (tenth : Bool)
    (choice : ℕ → Choice) (connected : ℕ → Bool) : CountersOk (process env curTick tenth choice connected s) := by
  obtain ⟨htotal, hnodes, hframes⟩ := visitFrames_counters env hcur choice ⟨s.nodes, s.stats, 0, s.history⟩ h.frames
  refine h.of_counted htotal (fun node n' hn' => ?_) hframes
  have hvisited : FrameRelayCounters.nodePending (visitFrames env curTick choice s.frames
      ⟨s.nodes, s.stats, 0, s.history⟩).2.nodes node = some n' := by
    unfold process at hn'
    dsimp only at hn'
    split_ifs at hn' with htenth
    · obtain ⟨stats, hstats, rfl⟩ := Option.map_eq_some_iff.mp hn'
      rw [get_filter, Option.filter_eq_some_iff, get_mapEntries, Option.map_eq_some_iff] at hstats
      obtain ⟨⟨stats', hstats', rfl⟩, hconnected⟩ := hstats
      rw [nodePending_eq hstats']
      rfl
    · exact hn'
  rw [hnodes node] at hvisited
  obtain ⟨n, hn, heq⟩ := Option.map_eq_some_iff.mp hvisited
  exact ⟨n, hn, heq.symm⟩

/-- `Relay` keeps the counters. -/
theorem countersOk_relay (h : CountersOk s) (curTick : ℕ) (frame : Frame) (ttl : ℕ)
    (source : Option ℕ) : CountersOk (relay curTick frame ttl source s) := by
  unfold relay
  dsimp only
  split_ifs with hempty
  · exact ⟨h.total, h.nodes, h.frames⟩
  · refine ⟨?_, fun node stats hstats => ?_, ?_⟩
    · rw [List.countP_append, h.total]
      simp [pending]
    · rw [List.countP_append, h.nodes node stats hstats]
      simp [pendingAt, pending]
    · intro f hf
      rcases List.mem_append.mp hf with hf | hf
      · exact h.frames f hf
      · obtain rfl := List.mem_singleton.mp hf
        exact fun _ => rfl

/-- The first part of `Ack` takes a pending frame from the counters. -/
theorem counted_ackRelayed {curTick : ℕ} (hcur : curTick ≠ 0) (ack : Ack) {f : SFrame}
    (hf : FrameOk f) (s : CFrameRelay) :
    Counted f (some (ackRelayed curTick ack f s).1) s.stats (ackRelayed curTick ack f s).2.stats
      s.nodes (ackRelayed curTick ack f s).2.nodes := by
  unfold ackRelayed
  by_cases hpending : f.sendTime ≠ 0 ∧ f.relayTime = 0
  · rw [if_pos hpending]
    refine counted_stop ?_ ?_ ?_ _ (fun stats => ?_) ?_
    · simp [pending, hpending]
    · simp [pending, hcur]
    · exact fun hzero => absurd hzero hpending.1
    · simp [CRelayStats.route]
    · rfl
  · rw [if_neg hpending]
    exact counted_kept hf

theorem pending_ackRelayed {curTick : ℕ} (hcur : curTick ≠ 0) (ack : Ack) (f : SFrame)
    (s : CFrameRelay) : pending (ackRelayed curTick ack f s).1 = false := by
  unfold ackRelayed
  by_cases hpending : f.sendTime ≠ 0 ∧ f.relayTime = 0
  · rw [if_pos hpending]
    simp [pending, hcur]
  · rw [if_neg hpending]
    simp only [pending]
    simpa using hpending

/-- The second part of `Ack` leaves the counters, as the frame is not pending any more. -/
theorem counted_ackDelivered (env : Env) (ack : Ack) (bDelivery : Bool) {f : SFrame} (hf : FrameOk f)
    (hidle : pending f = false) (s : CFrameRelay) :
    Counted f (ackDelivered env ack bDelivery f s).1 s.stats (ackDelivered env ack bDelivery f s).2.stats s.nodes
      (ackDelivered env ack bDelivery f s).2.nodes := by
  have hsame : ∀ change : CRelayStats → CRelayStats,
      (∀ stats, (change stats).stats.pendingFrames = stats.stats.pendingFrames + 0) →
      ∀ node, nodePending (onNode s.nodes f.dest change) node = nodePending s.nodes node := by
    intro change hchange node
    rw [nodePending_onNode s.nodes f.dest change 0 hchange]
    simp
  have hat : ∀ node, [f].countP (pendingAt node) = 0 := fun node =>
    countP_pendingAt_of_not node hidle
  unfold ackDelivered
  cases bDelivery with
  | true =>
    exact counted_of_same (by simp) (by simp [hidle]) (fun node => by simp [pendingAt, hidle]) rfl
      (hsame _ fun stats => by simp)
  | false =>
    cases ack.err with
    | none => exact counted_kept hf
    | some error =>
      have hfail := pending_fail env error f
      refine counted_of_same (by simpa using hfail.2) (by simp [hfail.1, hidle])
        (fun node => by simp [pendingAt, hfail.1, hidle]) rfl fun node => ?_
      have hclear : (f.fail env error).dest = none := rfl
      dsimp only
      rw [hclear]
      simp only [Bool.false_eq_true, if_false, ite_self]
      exact hsame _ (fun stats => by simp) node

/-- `Ack` keeps the counters. -/
theorem countersOk_ack (h : CountersOk s) {curTick : ℕ} (hcur : curTick ≠ 0) (ack' : Ack)
    (bDelivery : Bool) : CountersOk (ack env curTick ack' bDelivery s).2 := by
  unfold FrameRelay.ack
  have hsplit := List.span_eq_takeWhile_dropWhile (p := fun f => !ack'.isFor f) s.frames
  have happend : s.frames.takeWhile (fun f => !ack'.isFor f) ++
      s.frames.dropWhile (fun f => !ack'.isFor f) = s.frames := List.takeWhile_append_dropWhile
  rw [hsplit]
  cases hdrop : s.frames.dropWhile fun f => !ack'.isFor f with
  | nil => exact h
  | cons f after =>
    rw [hdrop] at happend
    generalize s.frames.takeWhile (fun f => !ack'.isFor f) = before at happend
    dsimp only
    have hmem : f ∈ s.frames := by
      rw [← happend]
      exact List.mem_append_right _ List.mem_cons_self
    have hrelayed := counted_ackRelayed hcur ack' (h.frames f hmem) s
    have hcounted := hrelayed.trans (counted_ackDelivered env ack' bDelivery
      (hrelayed.ok _ rfl) (pending_ackRelayed hcur ack' f s) _)
    have hcons : ∀ p : SFrame → Bool, s.frames.countP p = before.countP p + [f].countP p + after.countP p := by
      intro p
      rw [← happend, ← List.singleton_append, List.countP_append, List.countP_append]
      omega
    refine h.of_counted ?_ (fun node n' hn' => ?_) fun f' hf' => ?_
    · have htotal := hcounted.total
      rw [List.countP_append, List.countP_append, hcons]
      dsimp only
      push_cast
      omega
    · have hn' : nodePending _ node = some n' := hn'
      rw [hcounted.nodes node] at hn'
      obtain ⟨n, hn, rfl⟩ := Option.map_eq_some_iff.mp hn'
      refine ⟨n, hn, ?_⟩
      rw [List.countP_append, List.countP_append, hcons]
      push_cast
      ring
    · have hbefore : ∀ g ∈ before ++ f :: after, FrameOk g := by
        rw [happend]
        exact h.frames
      rcases List.mem_append.mp hf' with hf' | hf'
      · rcases List.mem_append.mp hf' with hf' | hf'
        · exact hbefore f' (List.mem_append_left _ hf')
        · exact hcounted.ok f' (by simpa using hf')
      · exact hbefore f' (List.mem_append_right _ (List.mem_cons_of_mem _ hf'))

/-- Frames taken over by another object of their node are pending there. -/
theorem countP_retarget {old new : ℕ} (hne : old ≠ new) {fs : List SFrame}
    (hnone : ∀ f ∈ fs, pendingAt new f = false) (node : ℕ) :
    (fs.map (retarget old new)).countP (pendingAt node) = if node = new then fs.countP (pendingAt old)
      else if node = old then 0 else fs.countP (pendingAt node) := by
  have hpending : ∀ f, pending (retarget old new f) = pending f := by
    intro f
    unfold retarget
    split_ifs <;> rfl
  rw [List.countP_map]
  split_ifs with hnew hold
  · refine List.countP_congr fun f hf => ?_
    have hnot := hnone f hf
    simp only [Function.comp, pendingAt, hpending, hnew] at hnot ⊢
    by_cases hdest : f.dest = some old
    · simp [retarget, hdest]
    · simp only [retarget, hdest, if_false]
      simp_all
  · refine List.countP_eq_zero.mpr fun f hf => ?_
    simp only [Function.comp, pendingAt, hpending, hold]
    by_cases hdest : f.dest = some old
    · simp [retarget, hdest, hne.symm]
    · simp [retarget, hdest]
  · refine List.countP_congr fun f hf => ?_
    simp only [Function.comp, pendingAt, hpending]
    by_cases hdest : f.dest = some old
    · have hne1 : ¬ new = node := fun heq => hnew heq.symm
      have hne2 : ¬ old = node := fun heq => hold heq.symm
      simp [retarget, hdest, hne1, hne2]
    · simp [retarget, hdest]

/-- `Add` keeps the counters if the node has no pending frames. -/
theorem countersOk_add (h : CountersOk s) {pNode : ℕ}
    (hnone : s.nodes.get pNode = none → ∀ f ∈ s.frames, pendingAt pNode f = false) : CountersOk (add env pNode s) := by
  unfold add
  cases hget : s.nodes.get pNode with
  | some stats => exact h
  | none =>
    have hnone := hnone hget
    rw [if_neg (by simp)]
    cases hfind : s.nodes.entries.find? fun e => env.getID e.1 = env.getID pNode with
    | none =>
      refine ⟨h.total, fun node stats hstats => ?_, h.frames⟩
      by_cases hnode : node = pNode
      · subst hnode
        rw [get_insert_self] at hstats
        injection hstats with hstats
        subst hstats
        have hzero : s.frames.countP (pendingAt node) = 0 :=
          List.countP_eq_zero.mpr fun f hf => by simp [hnone f hf]
        rw [hzero]
        rfl
      · rw [get_insert_of_ne _ _ hnode] at hstats
        exact h.nodes node stats hstats
    | some e =>
      have hmem : s.nodes.get e.1 = some e.2 := get_eq_some.mpr (List.mem_of_find?_eq_some hfind)
      have hne : e.1 ≠ pNode := by
        intro heq
        rw [heq, hget] at hmem
        cases hmem
      refine ⟨?_, fun node stats hstats => ?_, fun f hf => ?_⟩
      · have hpending : (s.frames.map (retarget e.1 pNode)).countP pending =
            s.frames.countP pending := by
          rw [List.countP_map]
          refine List.countP_congr fun f _ => ?_
          simp only [Function.comp, retarget]
          split_ifs <;> rfl
        rw [hpending]
        exact h.total
      · rw [countP_retarget hne hnone]
        by_cases hold : node = e.1
        · rw [hold, get_erase_self] at hstats
          cases hstats
        · rw [get_erase_of_ne _ hold] at hstats
          by_cases hnew : node = pNode
          · rw [hnew, get_insert_self] at hstats
            injection hstats with hstats
            rw [if_pos hnew, ← hstats]
            exact h.nodes e.1 e.2 hmem
          · rw [get_insert_of_ne _ _ hnew] at hstats
            rw [if_neg hnew, if_neg hold]
            exact h.nodes node stats hstats
      · obtain ⟨g, hg, rfl⟩ := List.mem_map.mp hf
        have hok := h.frames g hg
        unfold retarget
        split_ifs <;> exact hok

theorem countersOk_remove (h : CountersOk s) (pNode : ℕ) : CountersOk (remove pNode s) := by
  refine ⟨h.total, fun node stats hstats => ?_, h.frames⟩
  by_cases hnode : node = pNode
  · subst hnode
    rw [remove, get_erase_self] at hstats
    cases hstats
  · rw [remove, get_erase_of_ne _ hnode] at hstats
    exact h.nodes node stats hstats

theorem countersOk_step {s : State} (h : CountersOk s.relay) {op : Op} (hmeets : Meets s op) :
    CountersOk (step env s op).relay := by
  cases op with
  | wait duration => exact h
  | allowDelay bAllow => exact ⟨h.total, h.nodes, h.frames⟩
  | process tenth choice connected => exact countersOk_process h hmeets tenth choice connected
  | relay frame ttl source => exact countersOk_relay h s.curTick frame ttl source
  | ack ack' bDelivery => exact countersOk_ack h hmeets ack' bDelivery
  | add pNode => exact countersOk_add h hmeets
  | remove pNode => exact countersOk_remove h pNode

/-- Each operation of a run meets its condition. -/
def RunMeets (env : Env) (s : State) : List Op → Prop
  | [] => True
  | op :: ops => Meets s op ∧ RunMeets env (step env s op) ops

theorem countersOk_run {s : State} (h : CountersOk s.relay) {ops : List Op}
    (hmeets : RunMeets env s ops) : CountersOk (run env s ops).relay := by
  induction ops generalizing s with
  | nil => exact h
  | cons op ops ih => exact ih (countersOk_step h hmeets.1) hmeets.2

end Runs

end NeoLoader.FrameRelayCounters
