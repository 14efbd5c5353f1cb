import NeoLoader.KeyMapTotals
import NeoLoader.RouteStats

/-!
# Relaying frames

A relay holds the frames it received and passes each on to one of its nodes, until it is
acknowledged from the other end or too old. Nodes stand for their objects, which have an
identifier each, and frames carry the number of their receipt in place of the address of
their object. What goes out and what happens to frames is recorded in a history. The
channels of nodes are left out, apart from whether they are connected, and so is the
routing table, as the selection that uses it never returns a node.
-/

namespace NeoLoader.FrameRelay

open KeyMap KeyMap.OrderedMap RouteStats

/-- The fields of a frame that a relay reads, and its size. -/
structure Frame where
  fid : ℕ
  rid : ℕ
  eid : ℕ
  /-- `GetSize`. -/
  size : ℕ
  deriving DecidableEq, Repr

/-- The fields of an acknowledgement that a relay reads. -/
structure Ack where
  fid : ℕ
  rid : ℕ
  eid : ℕ
  err : Option String
  deriving DecidableEq, Repr

/-- `CFrameRelay::SFrame`. -/
structure SFrame where
  /-- The number of the receipt. -/
  receipt : ℕ
  frame : Frame
  reciveTime : ℕ
  ttl : ℕ
  sendTime : ℕ
  relayTime : ℕ
  /-- The node of `To`. -/
  dest : Option ℕ
  /-- The node of `From`. -/
  source : Option ℕ
  /-- `Failed`, with the identifiers of the nodes. -/
  failed : OrderedMap ℕ String

structure CRelayStats extends CRouteStats where
  deliveredFrames : ℕ
  lostFrames : ℕ
  deriving DecidableEq, Repr

/-- `SRelayStats`, as far as it is used for the relay as a whole. -/
structure SRelayStats where
  /-- `PendingFrames`, negative where the unsigned number has wrapped around. -/
  pendingFrames : ℤ
  relayedFrames : ℕ
  droppedFrames : ℕ
  deliveredFrames : ℕ
  lostFrames : ℕ
  deriving DecidableEq, Repr

/-- What happens to the frames of a relay. -/
inductive Event where
  /-- A frame is sent to a node, with what was known of both before. -/
  | sent (frame : SFrame) (node : ℕ) (stats : CRelayStats)
  /-- A frame sent to a node has timed out or was refused. -/
  | failed (receipt node : ℕ)
  /-- `SendRelayRes` to the source of a frame. -/
  | relayRes (receipt node : ℕ) (error : Option String)
  /-- `SendRelayRet` to the source of a frame. -/
  | relayRet (receipt node : ℕ)
  /-- A frame is removed. -/
  | removed (receipt : ℕ)

structure CFrameRelay where
  nodes : OrderedMap ℕ CRelayStats
  frames : List SFrame
  allowDelay : Bool
  stats : SRelayStats
  /-- The number of receipts so far. -/
  receipts : ℕ
  /-- What has happened, the latest first. -/
  history : List Event

/-- What a relay finds in the node it runs on. -/
structure Env where
  /-- `CKadNode::GetID` of the object of a node. -/
  getID : ℕ → ℕ
  minRelayTimeout : ℕ
  maxRelayTimeout : ℕ
  maxWindowSize : ℕ

/-- What is decided outside of the relay when a frame is visited. -/
structure Choice where
  /-- The entry that the routing table picks. -/
  route : ℕ
  /-- `rand()`. -/
  rand : ℕ
  /-- `SendRelayReq` has taken the frame. -/
  sendOk : Bool
  /-- `SearchingRelays`. -/
  searching : Bool

/-- `CFrameRelay::CFrameRelay`. -/
def CFrameRelay.new : CFrameRelay := ⟨empty, [], false, ⟨0, 0, 0, 0, 0⟩, 0, []⟩

/-- The constructor of `CRelayStats`. -/
def CRelayStats.new (env : Env) : CRelayStats where
  toCRouteStats := CRouteStats.new env.minRelayTimeout env.maxRelayTimeout env.maxWindowSize
  deliveredFrames := 0
  lostFrames := 0

/-- Statistics of a node with the part of a route changed. -/
def CRelayStats.route (f : CRouteStats → CRouteStats) (s : CRelayStats) : CRelayStats :=
  { s with toCRouteStats := f s.toCRouteStats }

structure SRoutingEntry where
  pNode : Option ℕ

/-- The constructor of `SRoutingEntry`. -/
def SRoutingEntry.new : SRoutingEntry := ⟨none⟩

/-- `CFrameRelay::SelectNode`: an entry is made for each node, which never gets the node,
and one of them is picked by scores and chance. -/
def selectNode (route : ℕ) (nodes : OrderedMap ℕ CRelayStats) : Option ℕ :=
  ((nodes.entries.map fun _ => SRoutingEntry.new)[route]?).bind SRoutingEntry.pNode

section Process

variable (env : Env) (curTick : ℕ)

/-- A node is in the `Failed` set of a frame. -/
def SFrame.hasFailed (f : SFrame) (node : ℕ) : Bool := (f.failed.get (env.getID node)).isSome

/-- The random selection: skip nodes that failed, and from a random one on those whose
window is full. -/
def pickNode (f : SFrame) (iRand : ℕ) : ℕ → List (ℕ × CRelayStats) → ℕ × Option ℕ
  | iOk, [] => (iOk, none)
  | iOk, e :: es =>
    if f.hasFailed env e.1 then pickNode f iRand iOk es
    else if iOk ≥ iRand ∧ e.2.isWindowFull = false then (iOk + 1, some e.1)
    else pickNode f iRand (iOk + 1) es

/-- The selection of a node: whether there is one at all, and the one to use now. -/
def chooseNode (choice : Choice) (f : SFrame) (nodes : OrderedMap ℕ CRelayStats) : ℕ × Option ℕ :=
  match (selectNode choice.route nodes).bind fun pNode =>
    if (nodes.get pNode).isSome ∧ f.hasFailed env pNode then some pNode else none with
  | some pNode => (1, some pNode)
  | none =>
    if nodes.entries.isEmpty then (0, none)
    else pickNode env f (choice.rand % nodes.entries.length) 0 nodes.entries

/-- The state of the loop over the frames. -/
structure Loop where
  nodes : OrderedMap ℕ CRelayStats
  stats : SRelayStats
  sizeOnRoute : ℕ
  /-- What has happened. -/
  history : List Event

/-- The time left in which the source of a frame waits for an acknowledgement. -/
def ackTimeOut (f : SFrame) : ℕ :=
  let age := curTick - f.reciveTime
  if age < f.ttl * 2 % 2 ^ 64 then f.ttl * 2 % 2 ^ 64 - age else 0

/-- The time a node has for a frame. -/
def curTimeOut (f : SFrame) (s : Loop) : ℕ :=
  match f.dest.bind s.nodes.get with
  | some pRelay =>
    min (pRelay.timeOutAverage * 2 % 2 ^ 32 * (s.sizeOnRoute / 1024 + 1) % 2 ^ 64) (ackTimeOut curTick f)
  | none => 0

/-- A frame whose node did not answer in time, or refused it. -/
def SFrame.fail (error : String) (f : SFrame) : SFrame :=
  { f with
    sendTime := 0
    relayTime := 0
    dest := none
    failed := match f.dest with
      | some node => f.failed.insert (env.getID node) error
      | none => f.failed }

/-- What is recorded of a frame that failed. -/
def failEvents (f : SFrame) : List Event := (f.dest.map (Event.failed f.receipt)).toList

/-- A node with its statistics changed, if it is there. -/
def onNode (nodes : OrderedMap ℕ CRelayStats) (dest : Option ℕ) (f : CRelayStats → CRelayStats) :
    OrderedMap ℕ CRelayStats :=
  match dest with
  | some node => nodes.modify node f
  | none => nodes

/-- The branch of a frame that has timed out. -/
def timeOutFrame (f : SFrame) (s : Loop) : SFrame × Loop :=
  (f.fail env "TimeOut",
    { s with
      nodes := onNode s.nodes f.dest (CRelayStats.route CRouteStats.frameDropped)
      stats.pendingFrames := s.stats.pendingFrames - 1
      history := failEvents f ++ s.history })

/-- Hand a frame to a node. -/
def sendFrame (f : SFrame) (node : ℕ) (stats : CRelayStats) (s : Loop) : SFrame × Loop :=
  ({ f with sendTime := curTick, dest := some node },
    { s with
      nodes := s.nodes.modify node (CRelayStats.route CRouteStats.framePending)
      stats.pendingFrames := s.stats.pendingFrames + 1
      history := Event.sent f node stats :: s.history })

/-- What is answered to the source of a frame, if it came from another node. -/
def answer (f : SFrame) (event : ℕ → ℕ → Event) : List Event :=
  (f.source.map (event f.receipt)).toList

/-- A frame that is too old: it is removed if it is not sent, or its source does not wait
any more. -/
def fadeFrame (f : SFrame) (s : Loop) : Option SFrame × Loop :=
  if f.sendTime = 0 ∨ ackTimeOut curTick f = 0 then
    (none, { s with
      stats.droppedFrames := s.stats.droppedFrames + if f.relayTime = 0 then 1 else 0
      history := Event.removed f.receipt :: s.history })
  else (some f, s)

/-- A frame that cannot be delivered is removed and refused towards its source, unless
nodes are still searched for. -/
def refuseFrame (choice : Choice) (f : SFrame) (s : Loop) : Option SFrame × Loop :=
  if choice.searching then (some f, s)
  else (none, { s with
    stats.droppedFrames := s.stats.droppedFrames + 1
    history := Event.removed f.receipt :: answer f (Event.relayRes · · (some "NoNodes")) ++ s.history })

/-- A frame goes to the node that was chosen, if that takes it. -/
def relayFrame (choice : Choice) (f : SFrame) (node : ℕ) (s : Loop) : Option SFrame × Loop :=
  match s.nodes.get node with
  | none => (some f, s)
  | some stats =>
    if choice.sendOk then
      (some (sendFrame curTick f node stats s).1, (sendFrame curTick f node stats s).2)
    else (some f, s)

/-- The part of the loop for a frame that is not on its way. -/
def forwardFrame (choice : Choice) (f : SFrame) (s : Loop) : Option SFrame × Loop :=
  if curTick - f.reciveTime ≥ f.ttl then fadeFrame curTick f s
  else
    match chooseNode env choice f s.nodes with
    | (0, _) => refuseFrame choice f s
    | (_ + 1, none) => (some f, s)
    | (_ + 1, some node) => relayFrame curTick choice f node s

/-- One round of the loop over the frames. -/
def visitFrame (choice : Choice) (f : SFrame) (s : Loop) : Option SFrame × Loop :=
  if f.sendTime ≠ 0 then
    let s := { s with sizeOnRoute := s.sizeOnRoute + f.frame.size }
    if f.relayTime ≠ 0 ∨ curTick - f.sendTime < curTimeOut curTick f s then (some f, s)
    else
      let result := timeOutFrame env f s
      forwardFrame env curTick choice result.1 result.2
  else forwardFrame env curTick choice f s

/-- The loop over the frames. -/
def visitFrames (choice : ℕ → Choice) : List SFrame → Loop → List SFrame × Loop
  | [], s => ([], s)
  | f :: fs, s =>
    let result := visitFrame env curTick (choice f.receipt) f s
    let rest := visitFrames choice fs result.2
    (result.1.toList ++ rest.1, rest.2)

/-- `CFrameRelay::Process`. Each tenth of a second the statistics are updated, and nodes
that are not connected any more are removed. -/
def process (tenth : Bool) (choice : ℕ → Choice) (connected : ℕ → Bool) (s : CFrameRelay) :
    CFrameRelay :=
  let result := visitFrames env curTick choice s.frames ⟨s.nodes, s.stats, 0, s.history⟩
  let nodes := result.2.nodes
  { s with
    nodes :=
      if tenth then
        (nodes.mapEntries fun _ => CRelayStats.route CRouteStats.updateControl).filter fun node _ => connected node
      else nodes
    frames := result.1
    stats := result.2.stats
    history := result.2.history }

end Process

section Operations

variable (env : Env) (curTick : ℕ)

/-- `CFrameRelay::Relay`. -/
def relay (frame : Frame) (ttl : ℕ) (source : Option ℕ) (s : CFrameRelay) : CFrameRelay :=
  let f : SFrame := ⟨s.receipts, frame, curTick, ttl, 0, 0, none, source, empty⟩
  if s.allowDelay = false ∧ s.nodes.entries.isEmpty then
    { s with
      receipts := s.receipts + 1
      history := answer f (Event.relayRes · · (some "NoNodes")) ++ s.history }
  else
    { s with
      frames := s.frames ++ [f]
      receipts := s.receipts + 1
      history := answer f (Event.relayRes · · none) ++ s.history }

/-- An acknowledgement belongs to a frame. -/
def Ack.isFor (ack : Ack) (f : SFrame) : Bool :=
  ack.fid = f.frame.fid ∧ ack.rid = f.frame.rid ∧ ack.eid = f.frame.eid

/-- The first part of `CFrameRelay::Ack`: the frame is not pending any more. -/
def ackRelayed (ack : Ack) (f : SFrame) (s : CFrameRelay) : SFrame × CFrameRelay :=
  if f.sendTime ≠ 0 ∧ f.relayTime = 0 then
    ({ f with relayTime := curTick },
      { s with
        nodes := onNode s.nodes f.dest (CRelayStats.route fun stats =>
          stats.frameRelayed.addSample (curTick - f.sendTime) f.frame.size)
        stats.pendingFrames := s.stats.pendingFrames - 1
        stats.relayedFrames := s.stats.relayedFrames + if ack.err = none then 1 else 0 })
  else (f, s)

/-- The second part of `CFrameRelay::Ack`: a frame that was delivered is removed, and one
that was refused is put back. -/
def ackDelivered (ack : Ack) (bDelivery : Bool) (f : SFrame) (s : CFrameRelay) : Option SFrame × CFrameRelay :=
  if bDelivery then
    (none, { s with
      nodes := onNode s.nodes f.dest fun stats =>
        { stats with deliveredFrames := stats.deliveredFrames + 1 }
      stats.lostFrames := s.stats.lostFrames + if ack.err.isSome then 1 else 0
      stats.deliveredFrames := s.stats.deliveredFrames + if ack.err.isSome then 0 else 1
      history := Event.removed f.receipt :: answer f Event.relayRet ++ s.history })
  else
    match ack.err with
    | none => (some f, s)
    | some error =>
      let f' := f.fail env error
      let nodes := onNode s.nodes f.dest fun stats =>
        { stats with lostFrames := stats.lostFrames + 1 }
      (some f', { s with
        -- the node to remove is read after it was cleared
        nodes := if error = "UnknownRoute" then
            match f'.dest with
            | some node => nodes.erase node
            | none => nodes
          else nodes
        history := failEvents f ++ s.history })

/-- `CFrameRelay::Ack`, with the result. -/
def ack (ack : Ack) (bDelivery : Bool) (s : CFrameRelay) : Bool × CFrameRelay :=
  match s.frames.span fun f => !ack.isFor f with
  | (_, []) => (false, s)
  | (before, f :: after) =>
    let relayed := ackRelayed curTick ack f s
    let result := ackDelivered env ack bDelivery relayed.1 relayed.2
    (true, { result.2 with frames := before ++ result.1.toList ++ after })

/-- Frames sent to the object of a node are taken over by another object. -/
def retarget (old new : ℕ) (f : SFrame) : SFrame :=
  if f.dest = some old then { f with dest := some new } else f

/-- `CFrameRelay::Add`. -/
def add (pNode : ℕ) (s : CFrameRelay) : CFrameRelay :=
  if (s.nodes.get pNode).isSome then s
  else
    match s.nodes.entries.find? fun e => env.getID e.1 = env.getID pNode with
    | some e =>
      { s with
        nodes := (s.nodes.insert pNode e.2).erase e.1
        frames := s.frames.map (retarget e.1 pNode) }
    | none => { s with nodes := s.nodes.insert pNode (CRelayStats.new env) }

/-- `CFrameRelay::Remove`. -/
def remove (pNode : ℕ) (s : CFrameRelay) : CFrameRelay := { s with nodes := s.nodes.erase pNode }

end Operations

/-- What can be done to a relay. -/
inductive Op where
  /-- Time passes. -/
  | wait (duration : ℕ)
  | allowDelay (bAllow : Bool)
  | process (tenth : Bool) (choice : ℕ → Choice) (connected : ℕ → Bool)
  | relay (frame : Frame) (ttl : ℕ) (source : Option ℕ)
  | ack (ack : Ack) (bDelivery : Bool)
  | add (pNode : ℕ)
  | remove (pNode : ℕ)

/-- A relay and the time. -/
structure State where
  /-- `GetCurTick`. -/
  curTick : ℕ
  /-- The relay. -/
  relay : CFrameRelay

/-- One operation. -/
def step (env : Env) (s : State) : Op → State
  | .wait duration => { s with curTick := s.curTick + duration }
  | .allowDelay bAllow => { s with relay := { s.relay with allowDelay := bAllow } }
  | .process tenth choice connected =>
    { s with relay := process env s.curTick tenth choice connected s.relay }
  | .relay frame ttl source => { s with relay := relay s.curTick frame ttl source s.relay }
  | .ack ack' bDelivery => { s with relay := (ack env s.curTick ack' bDelivery s.relay).2 }
  | .add pNode => { s with relay := add env pNode s.relay }
  | .remove pNode => { s with relay := remove pNode s.relay }

/-- A run of operations. -/
def run (env : Env) (s : State) : List Op → State
  | [] => s
  | op :: ops => run env (step env s op) ops

theorem selectNode_eq_none (route : ℕ) (nodes : OrderedMap ℕ CRelayStats) : selectNode route nodes = none := by
  unfold selectNode
  rw [List.getElem?_map]
  cases nodes.entries[route]? <;> rfl

/-- The random selection picks a node that has not failed and has room in its window. -/
theorem pickNode_some {env : Env} {f : SFrame} {iRand node : ℕ}
    {es : List (ℕ × CRelayStats)} {iOk : ℕ} (h : (pickNode env f iRand iOk es).2 = some node) :
    f.hasFailed env node = false ∧ ∃ stats, (node, stats) ∈ es ∧ stats.isWindowFull = false := by
  induction es generalizing iOk with
  | nil => simp [pickNode] at h
  | cons e es ih =>
    unfold pickNode at h
    split_ifs at h with hfailed hok
    · obtain ⟨hnode, stats, hmem, hroom⟩ := ih h
      exact ⟨hnode, stats, List.mem_cons_of_mem _ hmem, hroom⟩
    · simp only [Option.some.injEq] at h
      subst h
      exact ⟨by simpa using hfailed, e.2, List.mem_cons_self, hok.2⟩
    · obtain ⟨hnode, stats, hmem, hroom⟩ := ih h
      exact ⟨hnode, stats, List.mem_cons_of_mem _ hmem, hroom⟩

/-- The selection of a node finds one that has not failed and has room in its window. -/
theorem chooseNode_some {env : Env} {choice : Choice} {f : SFrame} {nodes : OrderedMap ℕ CRelayStats} {node : ℕ}
    (h : (chooseNode env choice f nodes).2 = some node) :
    f.hasFailed env node = false ∧ ∃ stats, nodes.get node = some stats ∧ stats.isWindowFull = false := by
  unfold chooseNode at h
  rw [selectNode_eq_none, Option.bind_none] at h
  dsimp only at h
  split_ifs at h with hempty
  obtain ⟨hnode, stats, hmem, hroom⟩ := pickNode_some h
  exact ⟨hnode, stats, get_eq_some.mpr hmem, hroom⟩

/-- What can become of a frame that is not on its way. -/
inductive Forwarded (env : Env) (curTick : ℕ) (f : SFrame) (s : Loop) :
    Option SFrame × Loop → Prop where
  /-- It stays, as it is not too old. -/
  | kept : curTick - f.reciveTime < f.ttl → Forwarded env curTick f s (some f, s)
  /-- It is removed, and may be refused towards its source. -/
  | removed (droppedFrames : ℕ) (events : List Event) :
    events = [] ∨ events = answer f (Event.relayRes · · (some "NoNodes")) →
    Forwarded env curTick f s (none, { s with
      stats.droppedFrames := droppedFrames
      history := Event.removed f.receipt :: events ++ s.history })
  /-- It is sent to a node that has not failed and has room in its window. -/
  | sent (node : ℕ) (stats : CRelayStats) : curTick - f.reciveTime < f.ttl →
    s.nodes.get node = some stats → f.hasFailed env node = false → stats.isWindowFull = false →
    Forwarded env curTick f s (some (sendFrame curTick f node stats s).1, (sendFrame curTick f node stats s).2)

/-- The part of the loop for a frame that is not on its way. -/
theorem forwardFrame_cases (env : Env) (curTick : ℕ) (choice : Choice) {f : SFrame}
    (hsend : f.sendTime = 0) (s : Loop) : Forwarded env curTick f s (forwardFrame env curTick choice f s) := by
  unfold forwardFrame
  by_cases hage : curTick - f.reciveTime ≥ f.ttl
  · rw [if_pos hage, fadeFrame, if_pos (Or.inl hsend)]
    exact Forwarded.removed _ [] (Or.inl rfl)
  · rw [if_neg hage]
    have hyoung : curTick - f.reciveTime < f.ttl := not_le.mp hage
    cases hchoose : chooseNode env choice f s.nodes with
    | mk iOk target =>
      cases iOk with
      | zero =>
        dsimp only [refuseFrame]
        split_ifs with hsearch
        · exact Forwarded.kept hyoung
        · exact Forwarded.removed _ _ (Or.inr rfl)
      | succ iOk =>
        cases target with
        | none => exact Forwarded.kept hyoung
        | some node =>
          have hsome : (chooseNode env choice f s.nodes).2 = some node := by rw [hchoose]
          obtain ⟨hnode, stats, hstats, hroom⟩ := chooseNode_some hsome
          dsimp only [relayFrame]
          rw [hstats]
          dsimp only
          split_ifs with hok
          · exact Forwarded.sent node stats hyoung hstats hnode hroom
          · exact Forwarded.kept hyoung

end NeoLoader.FrameRelay
