import Mathlib.Logic.Function.Basic
import NeoLoader.KeyMapTotals

/-!
# Port tests

A node asks another one to have its address tested, which chooses a helper and relays the
request. The helper acknowledges, and sends a packet to the address under test. The answers
are paired with the requests by the address that is tested. Addresses are numbers in their
order; the times between the steps of a watch dog are left out.
-/

namespace NeoLoader.PortTest

open KeyMap OrderedMap

/-- What is known of addresses, and the channels of all nodes. -/
structure Network where
  /-- `GetProtocol` of an address. -/
  protocol : ℕ → ℕ
  /-- The host of an address. -/
  host : ℕ → ℕ
  isValid : ℕ → Bool
  /-- `GetAddress` of a channel of a node. -/
  address : ℕ → ℕ → ℕ
  /-- The node that a packet sent on a channel reaches, and the channel there. -/
  peer : ℕ → ℕ → ℕ × ℕ

/-- A packet of a port test. -/
inductive Packet
  /-- `FW_TEST_RQ`. -/
  | testReq (addr : ℕ)
  /-- `FW_TEST_REL_RQ`. -/
  | testRelReq (addr : ℕ)
  /-- `FW_TEST_REL_ACK`. -/
  | testRelAck (addr : ℕ) (err : Option String)
  /-- `FW_TEST_ACK`. -/
  | testAck (addr : ℕ) (hlpr : Option ℕ) (err : Option String)
  /-- `FW_TEST_RES`. -/
  | testRes (addr : ℕ)
  deriving DecidableEq, Repr

/-- `SWatchDog`, of a protocol. -/
structure SWatchDog where
  /-- `Pending`, the addresses of nodes that were asked, until when. -/
  pending : OrderedMap ℕ ℕ
  /-- `Reports`, whether a helper was named, and whether a packet came from it. -/
  reports : OrderedMap ℕ (Bool × Bool)

structure CFirewallHandler where
  /-- `m_PendingTestRelays`, the channels of those who asked, unless they are closed. -/
  m_PendingTestRelays : OrderedMap ℕ (Option ℕ)
  m_WatchDogs : ℕ → SWatchDog

/-- What is noted down of a run. -/
inductive Event
  /-- A test request of a channel is relayed on a channel, for a helper that was chosen. -/
  | relayed (node requester sentOn helper addr : ℕ)
  /-- An acknowledgement of a helper comes over a channel, with what is sent for it. -/
  | acked (node channel addr : ℕ) (reply : Option (ℕ × Packet))
  /-- A helper sends a packet to test an address. -/
  | tested (node channel addr : ℕ)
  /-- A packet of a helper has come. -/
  | arrived (node helper : ℕ)
  /-- A test with a helper is counted as successful. -/
  | counted (node helper : ℕ)
  deriving DecidableEq, Repr

/-- All nodes, with the packets on their way and the events so far, the last one first. -/
structure State where
  /-- The handler of each node. -/
  nodes : ℕ → CFirewallHandler
  /-- The node and channel a packet will reach. -/
  packets : List ((ℕ × ℕ) × Packet)
  /-- Not in the source: the events. -/
  log : List Event

/-- No test has been started. -/
def State.new : State := ⟨fun _ => ⟨empty, fun _ => ⟨empty, empty⟩⟩, [], []⟩

/-- The mark of an address that has answered. -/
def doneMark : ℕ := 2 ^ 64 - 1

section Handlers

variable (net : Network)

/-- `QueuePacket`. -/
def send (node channel : ℕ) (packet : Packet) (s : State) : State :=
  { s with packets := s.packets ++ [(net.peer node channel, packet)] }

/-- Another handler of a node. -/
def setNode (node : ℕ) (handler : CFirewallHandler) (s : State) : State :=
  { s with nodes := Function.update s.nodes node handler }

/-- Another watch dog of a node. -/
def setWatchDog (node protocol : ℕ) (dog : SWatchDog) (s : State) : State :=
  setNode node { s.nodes node with
    m_WatchDogs := Function.update (s.nodes node).m_WatchDogs protocol dog } s

/-- An event is noted down. -/
def note (event : Event) (s : State) : State := { s with log := event :: s.log }

/-- The packet of `SendTestAck`. -/
def testAckOf (node channel hlprAddress : ℕ) (err : Option String) : Packet :=
  .testAck (net.address node channel) (if net.isValid hlprAddress then some hlprAddress else none) err

/-- `Compare` of two addresses, if it ignores the port. -/
def sameHost (a b : ℕ) : Bool := net.protocol a = net.protocol b && net.host a = net.host b

/-- A helper that can be chosen. -/
def chosenHelper (node channel : ℕ) (helper : Option ℕ) : Option ℕ :=
  helper.filter fun h => !sameHost net (net.address node channel) h

/-- `CFirewallHandler::HandleTestReq`, with the address of the random node. -/
def handleTestReq (node channel addr : ℕ) (helper : Option ℕ) (s : State) : State :=
  match chosenHelper net node channel helper with
  | none => send net node channel (.testAck (net.address node channel) none (some "NoHlp")) s
  | some h =>
    let handler := s.nodes node
    note (.relayed node channel channel h addr) (send net node channel (.testRelReq addr) (setNode node { handler with
        m_PendingTestRelays := handler.m_PendingTestRelays.insert addr (some channel) } s))

/-- `CFirewallHandler::HandleTestRelReq`. -/
def handleTestRelReq (node channel addr : ℕ) (bNack : Bool) (s : State) : State :=
  let s := send net node channel (.testRelAck addr (if bNack then some "HasCon" else none)) s
  if bNack then s
  else note (.tested node channel addr) (send net node channel (.testRes (net.address node channel)) s)

/-- `CFirewallHandler::HandleTestRelAck`. -/
def handleTestRelAck (node channel addr : ℕ) (err : Option String) (s : State) : State :=
  match (s.nodes node).m_PendingTestRelays.get addr with
  | none => note (.acked node channel addr none) s
  | some none => note (.acked node channel addr none) s
  | some (some requester) =>
    let handler := s.nodes node
    let packet := testAckOf net node requester (net.address node channel) err
    note (.acked node channel addr (some (requester, packet))) (setNode node { handler with
      m_PendingTestRelays := handler.m_PendingTestRelays.erase addr } (send net node requester packet s))

/-- The report of a helper. -/
def SWatchDog.report (dog : SWatchDog) (helper : ℕ) : Bool × Bool :=
  (dog.reports.get helper).getD (false, false)

/-- `CFirewallHandler::HandleTestAck`. -/
def handleTestAck (node channel : ℕ) (hlpr : Option ℕ) (err : Option String) (s : State) : State :=
  let address := net.address node channel
  let dog := (s.nodes node).m_WatchDogs (net.protocol address)
  match dog.pending.get address with
  | none => s
  | some until_ =>
    if until_ = doneMark then s
    else if err.isSome then
      setWatchDog node (net.protocol address) { dog with pending := dog.pending.insert address 0 } s
    else
      -- without a helper, an address that is not valid is named
      let helper := hlpr.getD 0
      setWatchDog node (net.protocol address)
        { pending := dog.pending.insert address doneMark
          reports := dog.reports.insert helper (true, (dog.report helper).2) } s

/-- `CFirewallHandler::HandleTestRes`. -/
def handleTestRes (node channel : ℕ) (s : State) : State :=
  let address := net.address node channel
  let dog := (s.nodes node).m_WatchDogs (net.protocol address)
  note (.arrived node address) (setWatchDog node (net.protocol address)
    { dog with reports := dog.reports.insert address ((dog.report address).1, true) } s)

/-- `CFirewallHandler::ProcessPacket`. -/
def processPacket (node channel : ℕ) (helper : Option ℕ) (bNack : Bool) (packet : Packet) (s : State) : State :=
  match packet with
  | .testReq addr => handleTestReq net node channel addr helper s
  | .testRelReq addr => handleTestRelReq net node channel addr bNack s
  | .testRelAck addr err => handleTestRelAck net node channel addr err s
  | .testAck _ hlpr err => handleTestAck net node channel hlpr err s
  | .testRes _ => handleTestRes net node channel s

/-- A node that is not asked yet is asked for a test. -/
def startTest (node channel addr until_ : ℕ) (s : State) : State :=
  let address := net.address node channel
  let dog := (s.nodes node).m_WatchDogs (net.protocol address)
  match dog.pending.get address with
  | some _ => s
  | none => send net node channel (.testReq addr)
      (setWatchDog node (net.protocol address) { dog with pending := dog.pending.insert address until_ } s)

/-- The helpers whose tests were successful. -/
def SWatchDog.successes (dog : SWatchDog) : List ℕ :=
  (dog.reports.entries.filter fun report => report.2.1 && report.2.2).map Prod.fst

/-- When no check is running any more the tests are counted. -/
def finishTest (node protocol uNow : ℕ) (s : State) : State :=
  let dog := (s.nodes node).m_WatchDogs protocol
  if dog.pending.entries.any fun entry => entry.2 ≠ doneMark && entry.2 > uNow then s
  else
    let s := setWatchDog node protocol ⟨empty, empty⟩ s
    { s with log := dog.successes.map (Event.counted node) ++ s.log }

/-- A channel is closed, relays do not find it any more. -/
def closeChannel (node channel : ℕ) (s : State) : State :=
  let handler := s.nodes node
  setNode node { handler with
    m_PendingTestRelays := handler.m_PendingTestRelays.mapEntries fun _ pChannel =>
      if pChannel = some channel then none else pChannel } s

/-- Clean up pending address tests. -/
def cleanUp (node : ℕ) (s : State) : State :=
  let handler := s.nodes node
  setNode node { handler with
    m_PendingTestRelays := handler.m_PendingTestRelays.filter fun _ pChannel => pChannel.isSome } s

end Handlers

/-- What happens in the network. -/
inductive Op
  /-- A node starts a test. -/
  | start (node channel addr until_ : ℕ)
  /-- A packet comes, at a node that would choose a helper and may have a connection. -/
  | deliver (i : ℕ) (helper : Option ℕ) (bNack : Bool)
  /-- A node counts its tests. -/
  | finish (node protocol uNow : ℕ)
  /-- A channel is closed. -/
  | close (node channel : ℕ)
  /-- A node cleans up. -/
  | cleanUp (node : ℕ)

/-- The next state of the network. -/
def step (net : Network) (s : State) : Op → State
  | .start node channel addr until_ => startTest net node channel addr until_ s
  | .deliver i helper bNack =>
    match s.packets[i]? with
    | none => s
    | some ((node, channel), packet) =>
      processPacket net node channel helper bNack packet { s with packets := s.packets.eraseIdx i }
  | .finish node protocol uNow => finishTest node protocol uNow s
  | .close node channel => closeChannel node channel s
  | .cleanUp node => PortTest.cleanUp node s

/-- The state after some steps. -/
def run (net : Network) (s : State) (ops : List Op) : State := ops.foldl (step net) s

/-- An event is as it should be, after some earlier ones: a request is relayed to the helper and
not to the one that asked, the acknowledgement of a helper is passed on with its name, a test packet
goes to the address under test, and a test is counted only when a packet of the helper has come. -/
def EventOk (net : Network) (earlier : List Event) : Event → Prop
  | .relayed node requester sentOn helper _ => net.address node sentOn = helper ∧ sentOn ≠ requester
  | .acked node channel addr reply => ∀ requester sentOn helper,
      .relayed node requester sentOn helper addr ∈ earlier → net.address node channel = helper →
        ∃ err, reply = some (requester, .testAck (net.address node requester) (some helper) err)
  | .tested node channel addr => net.address node channel = addr
  | .arrived _ _ => True
  | .counted node helper => .arrived node helper ∈ earlier

/-- Each event has a property, in view of the earlier ones. -/
def EachEvent (p : List Event → Event → Prop) : List Event → Prop
  | [] => True
  | event :: earlier => p earlier event ∧ EachEvent p earlier

/-- All events are as they should be. -/
def Correct (net : Network) : List Event → Prop := EachEvent (EventOk net)

/-- What is true of an event in all runs: a request goes back on the channel it came from, and a test
is counted only when a packet of the helper has come. -/
def EventFact (earlier : List Event) : Event → Prop
  | .relayed _ requester sentOn _ _ => sentOn = requester
  | .counted node helper => .arrived node helper ∈ earlier
  | _ => True

/-- The condition on a step: a node that is asked for a test finds no helper. -/
def Meets (net : Network) (s : State) : Op → Prop
  | .deliver i helper _ => ∀ node channel addr, s.packets[i]? = some ((node, channel), .testReq addr) →
      chosenHelper net node channel helper = none
  | _ => True

/-- The condition on all steps of a run. -/
def RunMeets (net : Network) : State → List Op → Prop
  | _, [] => True
  | s, op :: ops => Meets net s op ∧ RunMeets net (step net s op) ops

/-! ### All runs -/

/-- The reports of a watch dog. -/
def reports (s : State) (node protocol : ℕ) : OrderedMap ℕ (Bool × Bool) :=
  ((s.nodes node).m_WatchDogs protocol).reports

/-- A packet that is reported has come, and each event has what all events have. -/
structure Inv (s : State) : Prop where
  /-- The packet of a report. -/
  reported : ∀ node protocol helper report, (reports s node protocol).get helper = some report →
    report.2 = true → .arrived node helper ∈ s.log
  /-- The events. -/
  events : EachEvent EventFact s.log

theorem inv_new : Inv State.new := by
  refine ⟨fun node protocol helper report hget => ?_, trivial⟩
  change (empty : OrderedMap ℕ (Bool × Bool)).get helper = some report at hget
  rw [get_empty] at hget
  exact absurd hget (Option.some_ne_none _).symm

theorem Inv.congr {s s' : State} (h : Inv s) (hlog : s'.log = s.log)
    (hreports : ∀ node protocol, reports s' node protocol = reports s node protocol) : Inv s' := by
  constructor
  · intro node protocol helper report hget htrue
    rw [hreports] at hget
    rw [hlog]
    exact h.reported node protocol helper report hget htrue
  · rw [hlog]
    exact h.events

variable {s : State}

theorem Inv.packets (h : Inv s) (packets : List ((ℕ × ℕ) × Packet)) : Inv { s with packets := packets } :=
  h.congr rfl fun _ _ => rfl

theorem Inv.send {net : Network} (h : Inv s) (node channel : ℕ) (packet : Packet) :
    Inv (send net node channel packet s) :=
  h.packets _

theorem Inv.note (h : Inv s) {event : Event} (hevent : EventFact s.log event) : Inv (note event s) := by
  refine ⟨fun node protocol helper report hget htrue => ?_, hevent, h.events⟩
  exact List.mem_cons_of_mem _ (h.reported node protocol helper report hget htrue)

theorem Inv.setNode (h : Inv s) {node : ℕ} {handler : CFirewallHandler}
    (hdogs : handler.m_WatchDogs = (s.nodes node).m_WatchDogs) : Inv (setNode node handler s) := by
  refine h.congr rfl fun node' protocol => ?_
  unfold reports PortTest.setNode
  dsimp only
  by_cases hnode : node' = node
  · rw [hnode, Function.update_self, hdogs]
  · rw [Function.update_of_ne hnode]

theorem reports_setWatchDog (s : State) (node protocol : ℕ) (dog : SWatchDog) (node' protocol' : ℕ) :
    reports (setWatchDog node protocol dog s) node' protocol' =
      if node' = node ∧ protocol' = protocol then dog.reports else reports s node' protocol' := by
  unfold reports setWatchDog PortTest.setNode
  dsimp only
  by_cases hnode : node' = node
  · subst hnode
    rw [Function.update_self]
    dsimp only
    by_cases hprotocol : protocol' = protocol
    · rw [hprotocol, Function.update_self, if_pos ⟨rfl, rfl⟩]
    · rw [Function.update_of_ne hprotocol, if_neg fun hboth => hprotocol hboth.2]
  · rw [Function.update_of_ne hnode, if_neg fun hboth => hnode hboth.1]

theorem Inv.setWatchDog (h : Inv s) {node protocol : ℕ} {dog : SWatchDog}
    (hdog : ∀ helper report, dog.reports.get helper = some report → report.2 = true →
      .arrived node helper ∈ s.log) : Inv (setWatchDog node protocol dog s) := by
  refine ⟨fun node' protocol' helper report hget htrue => ?_, h.events⟩
  rw [reports_setWatchDog] at hget
  split_ifs at hget with hsame
  · exact hsame.1 ▸ hdog helper report hget htrue
  · exact h.reported node' protocol' helper report hget htrue

/-- A packet of an old report has come. -/
theorem Inv.report (h : Inv s) {node protocol helper : ℕ}
    (htrue : (((s.nodes node).m_WatchDogs protocol).report helper).2 = true) : .arrived node helper ∈ s.log := by
  unfold SWatchDog.report at htrue
  cases hget : ((s.nodes node).m_WatchDogs protocol).reports.get helper with
  | none =>
    rw [hget] at htrue
    exact absurd htrue Bool.false_ne_true
  | some report =>
    rw [hget] at htrue
    exact h.reported node protocol helper report hget htrue

variable {net : Network}

/-- A packet is handled. -/
theorem inv_processPacket (h : Inv s) (node channel : ℕ) (helper : Option ℕ) (bNack : Bool)
    (packet : Packet) : Inv (processPacket net node channel helper bNack packet s) := by
  cases packet with
  | testReq addr =>
    unfold processPacket handleTestReq
    dsimp only
    split
    · exact h.send node channel _
    · refine Inv.note (Inv.send ?_ node channel _) rfl
      exact h.setNode rfl
  | testRelReq addr =>
    unfold processPacket handleTestRelReq
    dsimp only
    split
    · exact h.send node channel _
    · refine Inv.note ?_ trivial
      exact (h.send node channel _).send node channel _
  | testRelAck addr err =>
    unfold processPacket handleTestRelAck
    dsimp only
    split
    · exact h.note trivial
    · exact h.note trivial
    · refine Inv.note ?_ trivial
      exact Inv.setNode (h.send node _ _) rfl
  | testAck addr hlpr err =>
    unfold processPacket handleTestAck
    dsimp only
    split
    · exact h
    · split_ifs
      · exact h
      · exact h.setWatchDog fun helper report => h.reported node _ helper report
      · refine h.setWatchDog fun helper report hget htrue => ?_
        dsimp only at hget
        by_cases hhelper : helper = hlpr.getD 0
        · rw [hhelper, get_insert_self, Option.some.injEq] at hget
          rw [← hget] at htrue
          exact hhelper ▸ h.report htrue
        · rw [get_insert_of_ne _ _ hhelper] at hget
          exact h.reported node _ helper report hget htrue
  | testRes addr =>
    unfold processPacket handleTestRes
    dsimp only
    refine ⟨fun node' protocol' helper report hget htrue => ?_, trivial, h.events⟩
    change (reports (PortTest.setWatchDog node _ _ s) node' protocol').get helper = some report at hget
    rw [reports_setWatchDog] at hget
    split_ifs at hget with hsame
    · by_cases hhelper : helper = net.address node channel
      · rw [hsame.1, hhelper]
        exact List.mem_cons_self
      · rw [get_insert_of_ne _ _ hhelper] at hget
        exact List.mem_cons_of_mem _ (hsame.1 ▸ h.reported node _ helper report hget htrue)
    · exact List.mem_cons_of_mem _ (h.reported node' protocol' helper report hget htrue)

theorem eachEvent_counted {node : ℕ} {helpers : List ℕ} {log : List Event}
    (hhelpers : ∀ helper ∈ helpers, .arrived node helper ∈ log) (hlog : EachEvent EventFact log) :
    EachEvent EventFact (helpers.map (Event.counted node) ++ log) := by
  induction helpers with
  | nil => exact hlog
  | cons helper helpers ih =>
    have hrest := ih fun helper' hmem => hhelpers helper' (List.mem_cons_of_mem _ hmem)
    exact ⟨List.mem_append_right _ (hhelpers helper List.mem_cons_self), hrest⟩

theorem Inv.of_mem_successes (h : Inv s) {node protocol helper : ℕ}
    (hmem : helper ∈ ((s.nodes node).m_WatchDogs protocol).successes) : .arrived node helper ∈ s.log := by
  unfold SWatchDog.successes at hmem
  obtain ⟨entry, hentry, rfl⟩ := List.mem_map.mp hmem
  obtain ⟨hmem, hboth⟩ := List.mem_filter.mp hentry
  have hget : (reports s node protocol).get entry.1 = some entry.2 := get_eq_some.mpr hmem
  exact h.reported node protocol entry.1 entry.2 hget (Bool.and_eq_true_iff.mp hboth).2

/-- The tests are counted. -/
theorem inv_finishTest (h : Inv s) (node protocol uNow : ℕ) : Inv (finishTest node protocol uNow s) := by
  unfold finishTest
  dsimp only
  split_ifs
  · exact h
  · have hset : Inv (PortTest.setWatchDog node protocol ⟨empty, empty⟩ s) :=
      h.setWatchDog fun helper report hget => by simp at hget
    constructor
    · intro node' protocol' helper report hget htrue
      exact List.mem_append_right _ (hset.reported node' protocol' helper report hget htrue)
    · exact eachEvent_counted (fun helper hmem => h.of_mem_successes hmem) h.events

theorem inv_step (h : Inv s) (op : Op) : Inv (step net s op) := by
  cases op with
  | start node channel addr until_ =>
    unfold step startTest
    dsimp only
    split
    · exact h
    · refine Inv.send ?_ node channel _
      exact h.setWatchDog fun helper report => h.reported node _ helper report
  | deliver i helper bNack =>
    unfold step
    dsimp only
    split
    · exact h
    · exact inv_processPacket (h.packets _) _ _ _ _ _
  | finish node protocol uNow => exact inv_finishTest h node protocol uNow
  | close node channel => exact h.setNode rfl
  | cleanUp node => exact h.setNode rfl

theorem inv_run (net : Network) (h : Inv s) (ops : List Op) : Inv (run net s ops) := by
  induction ops generalizing s with
  | nil => exact h
  | cons op ops ih => exact ih (inv_step h op)

/-! ### Runs where no helper is found -/

/-- The log goes on. -/
theorem processPacket_log (node channel : ℕ) (helper : Option ℕ) (bNack : Bool) (packet : Packet) (s : State) :
    ∃ new, (processPacket net node channel helper bNack packet s).log = new ++ s.log := by
  cases packet with
  | testReq addr =>
    unfold processPacket handleTestReq
    dsimp only
    split
    exacts [⟨[], rfl⟩, ⟨[_], rfl⟩]
  | testRelReq addr =>
    unfold processPacket handleTestRelReq
    dsimp only
    split
    exacts [⟨[], rfl⟩, ⟨[_], rfl⟩]
  | testRelAck addr err =>
    unfold processPacket handleTestRelAck
    dsimp only
    split
    exacts [⟨[_], rfl⟩, ⟨[_], rfl⟩, ⟨[_], rfl⟩]
  | testAck addr hlpr err =>
    unfold processPacket handleTestAck
    dsimp only
    split
    · exact ⟨[], rfl⟩
    · split_ifs
      exacts [⟨[], rfl⟩, ⟨[], rfl⟩, ⟨[], rfl⟩]
  | testRes addr => exact ⟨[_], rfl⟩

/-- The log goes on in one step. -/
theorem step_log (net : Network) (s : State) (op : Op) : ∃ new, (step net s op).log = new ++ s.log := by
  cases op with
  | start node channel addr until_ =>
    unfold step startTest
    dsimp only
    split
    exacts [⟨[], rfl⟩, ⟨[], rfl⟩]
  | deliver i helper bNack =>
    unfold step
    dsimp only
    split
    · exact ⟨[], rfl⟩
    · exact processPacket_log _ _ _ _ _ _
  | finish node protocol uNow =>
    unfold step finishTest
    dsimp only
    split_ifs
    exacts [⟨[], rfl⟩, ⟨_, rfl⟩]
  | close node channel => exact ⟨[], rfl⟩
  | cleanUp node => exact ⟨[], rfl⟩

theorem run_log (net : Network) (s : State) (ops : List Op) : ∃ new, (run net s ops).log = new ++ s.log := by
  induction ops generalizing s with
  | nil => exact ⟨[], rfl⟩
  | cons op ops ih =>
    obtain ⟨new, hnew⟩ := step_log net s op
    obtain ⟨later, hlater⟩ := ih (step net s op)
    exact ⟨later ++ new, by rw [List.append_assoc, ← hnew]; exact hlater⟩

theorem correct_of_append {new log : List Event} (h : Correct net (new ++ log)) : Correct net log := by
  induction new with
  | nil => exact h
  | cons event new ih => exact ih h.2

/-- A helper that is found does not get the request. -/
theorem meets_of_correct {op : Op} (h : Correct net (step net s op).log) : Meets net s op := by
  cases op with
  | deliver i helper bNack =>
    intro node channel addr hpacket
    by_contra hfound
    obtain ⟨chosen, hchosen⟩ := Option.ne_none_iff_exists'.mp hfound
    unfold step at h
    dsimp only at h
    rw [hpacket] at h
    unfold processPacket handleTestReq at h
    dsimp only at h
    rw [hchosen] at h
    exact h.1.2 rfl
  | start | finish | close | cleanUp => exact trivial

theorem runMeets_of_correct {ops : List Op} (h : Correct net (run net s ops).log) : RunMeets net s ops := by
  induction ops generalizing s with
  | nil => exact trivial
  | cons op ops ih =>
    obtain ⟨new, hnew⟩ := run_log net (step net s op) ops
    have hrest : Correct net (run net (step net s op) ops).log := h
    rw [hnew] at hrest
    exact ⟨meets_of_correct (correct_of_append hrest), ih h⟩

/-- A packet that is not relayed. -/
def Packet.Direct : Packet → Prop
  | .testRelReq _ => False
  | .testRelAck _ _ => False
  | _ => True

/-- An event that no relayed packet leads to. -/
def Event.Direct : Event → Prop
  | .arrived _ _ => True
  | .counted _ _ => True
  | _ => False

/-- Nothing was relayed. -/
structure Calm (s : State) : Prop where
  /-- The packets. -/
  packets : ∀ packet ∈ s.packets, packet.2.Direct
  /-- The events. -/
  events : ∀ event ∈ s.log, event.Direct

theorem Calm.send (h : Calm s) {node channel : ℕ} {packet : Packet} (hpacket : packet.Direct) :
    Calm (send net node channel packet s) := by
  refine ⟨fun sent hsent => ?_, h.events⟩
  rcases List.mem_append.mp hsent with hold | hnew
  · exact h.packets sent hold
  · rw [List.mem_singleton.mp hnew]
    exact hpacket

theorem Calm.setWatchDog (h : Calm s) (node protocol : ℕ) (dog : SWatchDog) : Calm (setWatchDog node protocol dog s) :=
  ⟨h.packets, h.events⟩

theorem Calm.note (h : Calm s) {event : Event} (hevent : event.Direct) : Calm (note event s) := by
  refine ⟨h.packets, fun event' hmem => ?_⟩
  rcases List.mem_cons.mp hmem with rfl | hold
  exacts [hevent, h.events event' hold]

/-- A packet is handled. -/
theorem Calm.processPacket (h : Calm s) {node channel : ℕ} {helper : Option ℕ} (bNack : Bool)
    {packet : Packet} (hpacket : packet.Direct)
    (hhelper : ∀ addr, packet = .testReq addr → chosenHelper net node channel helper = none) :
    Calm (processPacket net node channel helper bNack packet s) := by
  cases packet with
  | testReq addr =>
    unfold PortTest.processPacket handleTestReq
    dsimp only
    rw [hhelper addr rfl]
    exact h.send trivial
  | testRelReq addr => exact hpacket.elim
  | testRelAck addr err => exact hpacket.elim
  | testAck addr hlpr err =>
    unfold PortTest.processPacket handleTestAck
    dsimp only
    split
    · exact h
    · split_ifs
      · exact h
      · exact h.setWatchDog _ _ _
      · exact h.setWatchDog _ _ _
  | testRes addr => exact (h.setWatchDog _ _ _).note trivial

theorem Calm.step (h : Calm s) {op : Op} (hop : Meets net s op) : Calm (step net s op) := by
  cases op with
  | start node channel addr until_ =>
    unfold PortTest.step startTest
    dsimp only
    split
    · exact h
    · exact Calm.send (h.setWatchDog _ _ _) trivial
  | deliver i helper bNack =>
    unfold PortTest.step
    dsimp only
    split
    · exact h
    · next node channel packet hpacket =>
      have hrest : Calm { s with packets := s.packets.eraseIdx i } :=
        ⟨fun sent hsent => h.packets sent (List.mem_of_mem_eraseIdx hsent), h.events⟩
      refine hrest.processPacket bNack (h.packets _ (List.mem_of_getElem? hpacket)) fun addr heq => ?_
      exact hop node channel addr (heq ▸ hpacket)
  | finish node protocol uNow =>
    unfold PortTest.step finishTest
    dsimp only
    split_ifs
    · exact h
    · refine ⟨h.packets, fun event hmem => ?_⟩
      rcases List.mem_append.mp hmem with hnew | hold
      · obtain ⟨helper, -, rfl⟩ := List.mem_map.mp hnew
        exact trivial
      · exact h.events event hold
  | close node channel => exact ⟨h.packets, h.events⟩
  | cleanUp node => exact ⟨h.packets, h.events⟩

theorem Calm.run (h : Calm s) {ops : List Op} (hops : RunMeets net s ops) : Calm (run net s ops) := by
  induction ops generalizing s with
  | nil => exact h
  | cons op ops ih => exact ih (h.step hops.1) hops.2

/-- When nothing was relayed all events are as they should be. -/
theorem correct_of_direct {log : List Event} (hfacts : EachEvent EventFact log)
    (hdirect : ∀ event ∈ log, event.Direct) : Correct net log := by
  induction log with
  | nil => exact trivial
  | cons event log ih =>
    have hrest := ih hfacts.2 fun event' hmem => hdirect event' (List.mem_cons_of_mem _ hmem)
    refine ⟨?_, hrest⟩
    have hevent := hdirect event List.mem_cons_self
    cases event with
    | arrived node helper => exact trivial
    | counted node helper => exact hfacts.1
    | relayed | acked | tested => exact hevent.elim

/-- A run of the port test is as it should be if and only if no node that is asked for a test finds a
helper. In all runs a request that is relayed goes back to the one that asked, and a test is counted
only when a packet of its helper has come. -/
theorem correct_run_iff (net : Network) (ops : List Op) :
    (Correct net (run net State.new ops).log ↔ RunMeets net State.new ops) ∧
      EachEvent EventFact (run net State.new ops).log := by
  have hfacts := (inv_run net inv_new ops).events
  have hnew : Calm State.new := by
    constructor
    · intro packet hmem
      exact absurd hmem List.not_mem_nil
    · intro event hmem
      exact absurd hmem List.not_mem_nil
  refine ⟨⟨runMeets_of_correct, fun hops => ?_⟩, hfacts⟩
  exact correct_of_direct hfacts (hnew.run hops).events

/-- Three nodes with one channel to each other: a channel has the number of the node it leads to. -/
def threeNodes : Network where
  protocol := fun _ => 0
  host := id
  isValid := fun address => address != 0
  address := fun _ channel => channel
  peer := fun node channel => (channel, node)

/-- The first node asks the second one, which chooses the third one and sends the request to the first
one, so that the first one tests the address of the second one. -/
theorem correct_run_wrong :
    (run threeNodes State.new [.start 1 2 1 10, .deliver 0 (some 3) false, .deliver 0 none false]).log =
        [.tested 1 2 1, .relayed 2 1 1 3 1] ∧
      ¬ Correct threeNodes (run threeNodes State.new
        [.start 1 2 1 10, .deliver 0 (some 3) false, .deliver 0 none false]).log := by
  have hlog : (run threeNodes State.new [.start 1 2 1 10, .deliver 0 (some 3) false, .deliver 0 none false]).log =
        [.tested 1 2 1, .relayed 2 1 1 3 1] := by decide
  rw [hlog]
  exact ⟨rfl, fun h => h.2.1.2 rfl⟩

end NeoLoader.PortTest
