import NeoLoader.KeyMapTotals

/-!
# Node lookups

A lookup asks nodes for nodes closer to its target. What derived lookups add to the status
of a node and to the lookup is a type of its own, and the functions they override are
given with them. Nodes are told apart as the code does, by their objects, and the
identifier of a node is a function of it.
-/

namespace NeoLoader.KadLookup

open KeyMap KeyMap.OrderedMap

/-- `ELookupState`, of a lookup or of a node. -/
inductive ELookupState
  /-- No node lookup. -/
  | eNoLookup
  /-- Node lookup in progress. -/
  | eLookupActive
  /-- The closest nodes have been looked for. -/
  | eLookupFinished
  /-- For nodes only, one that knows no closer node. -/
  | eLookupClosest
  deriving DecidableEq, Repr

/-- An entry of `m_Nodes`, a node with its channel and its status. -/
structure SNodeStatus (σ : Type) where
  /-- `pChannel`, if it is not `NULL`, and whether it is disconnected. -/
  pChannel : Option Bool
  lookupState : ELookupState
  /-- `uTimeOut`, unless it is `-1`. -/
  uTimeOut : Option ℕ
  /-- What the derived status adds. -/
  own : σ
  deriving DecidableEq, Repr

/-- What is told to the history of a lookup. -/
inductive HistoryCall
  /-- Nodes that a node has named. -/
  | addNodes (nodes : List ℕ) (byID : ℕ)
  /-- A node that is asked, and the node that named it if that is why. -/
  | expectNodes (pNode : ℕ) (byID : Option ℕ)
  /-- An answer of a node, with the number of closer nodes. -/
  | registerNodes (pNode closerCount : ℕ)
  /-- A node that is asked for something else. -/
  | expectResponse (pNode : ℕ)
  /-- The response of a node. -/
  | registerResponse (pNode : ℕ)
  deriving DecidableEq, Repr

structure CKadLookup (σ ρ : Type) where
  /-- `m_ID`, the target. -/
  id : ℕ
  hopLimit : ℤ
  jumpCount : ℤ
  lookupState : ELookupState
  nodes : OrderedMap ℕ (SNodeStatus σ)
  closestNodes : ℤ
  /-- What `m_LookupHistory` has been told. -/
  history : List HistoryCall
  /-- Nodes whose channel has failed. -/
  failed : List ℕ
  /-- What the derived lookup adds. -/
  own : ρ

/-- What a derived lookup overrides. -/
structure Overrides (σ ρ : Type) where
  newNodeStatus : σ
  getNeededCount : CKadLookup σ ρ → ℤ
  /-- What `NodeStalling` does to the status of the node. -/
  stallNode : σ → σ
  /-- What `NodeStalling` does to the lookup. -/
  stallLookup : ρ → ρ
  /-- What `ChannelClosed` does to the status of the node. -/
  closeNode : σ → σ

/-- A node the routing table comes up with, and how it goes on with it. -/
structure Candidate where
  /-- The node. -/
  pNode : ℕ
  /-- A channel to it can be prepared. -/
  prepared : Bool
  /-- The request to it can be queued. -/
  queued : Bool
  deriving DecidableEq, Repr

variable {σ ρ : Type}

namespace CKadLookup

/-- The constructor of `CKadLookup`. -/
def new (id : ℕ) (hopLimit jumpCount : ℤ) (own : ρ) : CKadLookup σ ρ where
  id := id
  hopLimit := hopLimit
  jumpCount := jumpCount
  lookupState := ELookupState.eNoLookup
  nodes := empty
  closestNodes := 0
  history := []
  failed := []
  own := own

/-- The lookup with another value for a node. -/
def modifyNode (l : CKadLookup σ ρ) (pNode : ℕ) (f : SNodeStatus σ → SNodeStatus σ) :
    CKadLookup σ ρ :=
  { l with nodes := l.nodes.modify pNode f }

/-- The lookup with another number of closest nodes. -/
def addClosest (l : CKadLookup σ ρ) (n : ℤ) : CKadLookup σ ρ :=
  { l with closestNodes := l.closestNodes + n }

/-- The history is told something. -/
def tell (l : CKadLookup σ ρ) (call : HistoryCall) : CKadLookup σ ρ :=
  { l with history := l.history ++ [call] }

/-- The channel of a node has failed. -/
def fail (l : CKadLookup σ ρ) (pNode : ℕ) : CKadLookup σ ρ :=
  { l with failed := l.failed ++ [pNode] }

/-- The lookup is in another state. -/
def setState (l : CKadLookup σ ρ) (state : ELookupState) : CKadLookup σ ρ :=
  { l with lookupState := state }

end CKadLookup

namespace SNodeStatus

/-- The node without a channel. -/
def close (s : SNodeStatus σ) : SNodeStatus σ := { s with pChannel := none }

/-- The node with a new channel. -/
def reopen (s : SNodeStatus σ) : SNodeStatus σ := { s with pChannel := some false }

/-- The node whose channel has lost its connection. -/
def disconnect (s : SNodeStatus σ) : SNodeStatus σ :=
  { s with pChannel := s.pChannel.map fun _ => true }

/-- The node with a request until a time. -/
def await (uTimeOut : ℕ) (s : SNodeStatus σ) : SNodeStatus σ :=
  { s with uTimeOut := some uTimeOut }

/-- The node without a request. -/
def answered (s : SNodeStatus σ) : SNodeStatus σ := { s with uTimeOut := none }

/-- The node in another state of the lookup. -/
def setState (state : ELookupState) (s : SNodeStatus σ) : SNodeStatus σ :=
  { s with lookupState := state }

/-- The node with another derived status. -/
def setOwn (f : σ → σ) (s : SNodeStatus σ) : SNodeStatus σ := { s with own := f s.own }

end SNodeStatus

/-- `uTimeOut < uNow`. -/
def timedOut (uTimeOut : Option ℕ) (uNow : ℕ) : Bool :=
  match uTimeOut with
  | none => false
  | some t => t < uNow

/-- The status of a node without a channel. -/
def newStatus (v : Overrides σ ρ) : SNodeStatus σ := ⟨none, ELookupState.eNoLookup, none, v.newNodeStatus⟩

/-- `NodeStalling` of a node, unless it is stalled already. -/
def stallOwn (v : Overrides σ ρ) (s : SNodeStatus σ) : σ :=
  if s.uTimeOut = some 0 then s.own else v.stallNode s.own

/-- `NodeStalling` of the lookup, unless the node is stalled already. -/
def stallLookup (v : Overrides σ ρ) (uTimeOut : Option ℕ) (l : CKadLookup σ ρ) :
    CKadLookup σ ρ :=
  if uTimeOut = some 0 then l else { l with own := v.stallLookup l.own }

/-- The status of a node whose channel is found disconnected. -/
def loseStatus (v : Overrides σ ρ) (s : SNodeStatus σ) : SNodeStatus σ :=
  { s with pChannel := none, own := v.closeNode (stallOwn v s) }

/-- A closest node less, if this was one. -/
def loseClosest (s : SNodeStatus σ) (l : CKadLookup σ ρ) : CKadLookup σ ρ :=
  if s.lookupState = ELookupState.eLookupClosest then l.addClosest (-1) else l

/-- A node of `CKadLookup::Process` with a disconnected channel. -/
def loseChannel (v : Overrides σ ρ) (pNode : ℕ) (s : SNodeStatus σ) (l : CKadLookup σ ρ) :
    CKadLookup σ ρ :=
  loseClosest s (stallLookup v s.uTimeOut ((l.modifyNode pNode (loseStatus v)).fail pNode))

/-- The status of a node whose time has passed. -/
def passStatus (v : Overrides σ ρ) (s : SNodeStatus σ) : SNodeStatus σ :=
  { s with uTimeOut := some 0, own := stallOwn v s }

/-- A node of `CKadLookup::Process` whose time has passed. -/
def passTime (v : Overrides σ ρ) (pNode : ℕ) (s : SNodeStatus σ) (l : CKadLookup σ ρ) :
    CKadLookup σ ρ :=
  stallLookup v s.uTimeOut (l.modifyNode pNode (passStatus v))

/-- The node is awaited for closer nodes. -/
def isActive (uNow : ℕ) (s : SNodeStatus σ) : Bool :=
  s.pChannel = some false && !timedOut s.uTimeOut uNow && s.lookupState = ELookupState.eLookupActive

/-- A node with a channel, as `CKadLookup::Process` looks at it. -/
def checkChannel (v : Overrides σ ρ) (uNow pNode : ℕ) (s : SNodeStatus σ) (l : CKadLookup σ ρ) : CKadLookup σ ρ :=
  match s.pChannel with
  | none => l
  | some true => loseChannel v pNode s l
  | some false => if timedOut s.uTimeOut uNow then passTime v pNode s l else l

/-- The first loop of `CKadLookup::Process`, which also counts the active nodes. -/
def checkNodes (v : Overrides σ ρ) (uNow : ℕ) : List ℕ → CKadLookup σ ρ × ℤ → CKadLookup σ ρ × ℤ
  | [], acc => acc
  | pNode :: rest, (l, active) =>
    match l.nodes.get pNode with
    | none => checkNodes v uNow rest (l, active)
    | some s =>
      checkNodes v uNow rest (checkChannel v uNow pNode s l, if isActive uNow s then active + 1 else active)

/-- `CKadLookup::GetChannel`, which makes a status for the node if it has none. -/
def getChannel (v : Overrides σ ρ) (pNode : ℕ) (prepared : Bool) (l : CKadLookup σ ρ) :
    CKadLookup σ ρ :=
  match l.nodes.get pNode with
  | none =>
    let s := newStatus v
    { l with nodes := l.nodes.insert pNode (if prepared then s.reopen else s) }
  | some s =>
    if s.pChannel = none && prepared then l.modifyNode pNode SNodeStatus.reopen else l

/-- The node has a channel. -/
def hasChannel (l : CKadLookup σ ρ) (pNode : ℕ) : Bool :=
  match l.nodes.get pNode with
  | none => false
  | some s => s.pChannel.isSome

/-- A request for closer nodes has been sent. -/
def await (pNode uTimeOut : ℕ) (byID : Option ℕ) (l : CKadLookup σ ρ) : CKadLookup σ ρ :=
  (l.modifyNode pNode fun s => (s.setState ELookupState.eLookupActive).await uTimeOut).tell
    (HistoryCall.expectNodes pNode byID)

/-- `CKadLookup::RequestNodes`. -/
def requestNodes (uTimeOut pNode : ℕ) (channel queued : Bool) (byID : Option ℕ)
    (l : CKadLookup σ ρ) : CKadLookup σ ρ × Bool :=
  match l.nodes.get pNode with
  | none => (l, false)
  | some s =>
    if channel && s.uTimeOut = none && queued then (await pNode uTimeOut byID l, true)
    else (l, false)

/-- `CKadLookup::WasNodeUsed`. -/
def wasNodeUsed (l : CKadLookup σ ρ) (pNode : ℕ) : Bool :=
  match l.nodes.get pNode with
  | none => false
  | some s => s.lookupState ≠ ELookupState.eNoLookup

/-- A node of the routing table is asked on its own channel. -/
def askNode (v : Overrides σ ρ) (uTimeOut : ℕ) (c : Candidate) (l : CKadLookup σ ρ) : CKadLookup σ ρ × Bool :=
  let l := getChannel v c.pNode c.prepared l
  match requestNodes uTimeOut c.pNode (hasChannel l c.pNode) c.queued none l with
  | (l, true) => (l, true)
  | (l, false) => (l.fail c.pNode, false)

/-- The second loop of `CKadLookup::Process`, over the nodes of the routing table. -/
def askNodes (v : Overrides σ ρ) (uTimeOut : ℕ) : List Candidate → ℤ → CKadLookup σ ρ × ℤ → CKadLookup σ ρ × ℤ
  | [], _, acc => acc
  | c :: rest, askForCloser, (l, active) =>
    if askForCloser ≤ 0 then (l, active)
    else if wasNodeUsed l c.pNode then askNodes v uTimeOut rest askForCloser (l, active)
    else
      match askNode v uTimeOut c l with
      | (l, true) => askNodes v uTimeOut rest (askForCloser - 1) (l, active + 1)
      | (l, false) => askNodes v uTimeOut rest askForCloser (l, active)

/-- Number of nodes that are still to be asked. -/
def askForCloser (v : Overrides σ ρ) (active : ℤ) (l : CKadLookup σ ρ) : ℤ :=
  v.getNeededCount l - min (v.getNeededCount l) (active + l.closestNodes)

/-- What `CKadLookup::Process` does after its first loop. -/
def lookForNodes (v : Overrides σ ρ) (uTimeOut : ℕ) (candidates : List Candidate)
    (acc : CKadLookup σ ρ × ℤ) : CKadLookup σ ρ :=
  if acc.1.lookupState = ELookupState.eLookupActive then
    let asked := askNodes v uTimeOut candidates (askForCloser v acc.2 acc.1) acc
    if asked.2 = 0 then asked.1.setState ELookupState.eLookupFinished else asked.1
  else acc.1

/-- The keys of the nodes. -/
def nodeKeys (l : CKadLookup σ ρ) : List ℕ := l.nodes.entries.map Prod.fst

/-- `CKadLookup::Process`, every 100 ms. -/
def processLookup (v : Overrides σ ρ) (requestTimeOut uNow : ℕ) (candidates : List Candidate)
    (l : CKadLookup σ ρ) : CKadLookup σ ρ :=
  lookForNodes v (uNow + requestTimeOut) candidates (checkNodes v uNow (nodeKeys l) (l, 0))

/-- The end of `CKadLookup::OnCloserNodes`, for a node of the lookup. -/
def closerNodes (pNode closerCount : ℕ) (s : SNodeStatus σ) (l : CKadLookup σ ρ) :
    CKadLookup σ ρ :=
  if 0 < closerCount then
    l.modifyNode pNode fun s => s.answered.setState ELookupState.eLookupFinished
  else if s.lookupState = ELookupState.eLookupClosest then l.modifyNode pNode SNodeStatus.answered
  else
    (l.modifyNode pNode fun s => s.answered.setState ELookupState.eLookupClosest).addClosest 1

/-- `CKadLookup::OnCloserNodes`, with whether the node is the closest one found. -/
def onCloserNodes (pNode closerCount : ℕ) (l : CKadLookup σ ρ) : CKadLookup σ ρ × Bool :=
  let l := l.tell (HistoryCall.registerNodes pNode closerCount)
  match l.nodes.get pNode with
  | none => (l, false)
  | some s => (closerNodes pNode closerCount s l, closerCount = 0)

/-- The loop of `CLookupManager::AddNodes` over the nodes that a node has named, by their
distances. All requests go to the channel of the node that named them. -/
def countCloser (uTimeOut pNode uDistance : ℕ) (queued : ℕ → Bool) :
    List (ℕ × ℕ) → ℕ → CKadLookup σ ρ → CKadLookup σ ρ × ℕ
  | [], count, l => (l, count)
  | (distance, found) :: rest, count, l =>
    if uDistance ≤ distance then countCloser uTimeOut pNode uDistance queued rest count l
    else if wasNodeUsed l found then countCloser uTimeOut pNode uDistance queued rest count l
    else if 0 < count then countCloser uTimeOut pNode uDistance queued rest (count + 1) l
    else
      match requestNodes uTimeOut found true (queued found) (some pNode) l with
      | (l, true) => countCloser uTimeOut pNode uDistance queued rest (count + 1) l
      | (l, false) => countCloser uTimeOut pNode uDistance queued rest count l

/-- `CLookupManager::AddNodes`, up to the call of `OnCloserNodes`. -/
def addNodes (uTimeOut pNode uDistance : ℕ) (queued : ℕ → Bool) (found : OrderedMap ℕ ℕ)
    (l : CKadLookup σ ρ) : CKadLookup σ ρ × ℕ :=
  countCloser uTimeOut pNode uDistance queued found.entries 0
    (l.tell (HistoryCall.addNodes (found.entries.map Prod.snd) pNode))

/-- The connection to a node is lost. -/
def disconnect (pNode : ℕ) (l : CKadLookup σ ρ) : CKadLookup σ ρ :=
  l.modifyNode pNode SNodeStatus.disconnect

/-- `CKadLookup::CleanUpNodes`. -/
def cleanUpNodes (l : CKadLookup σ ρ) : CKadLookup σ ρ :=
  { l with nodes := empty, closestNodes := 0 }

/-- `CKadLookup::InitOperation`. -/
def initOperation (l : CKadLookup σ ρ) : CKadLookup σ ρ :=
  if l.hopLimit = 1 then l.setState ELookupState.eLookupActive else l

/-- What a lookup goes by. -/
structure Settings where
  /-- The identifier of a node. -/
  nodeID : ℕ → ℕ
  brancheCount : ℤ
  /-- `RequestTimeOut` in milliseconds. -/
  requestTimeOut : ℕ

/-- What a lookup that is not derived overrides. -/
def plain (p : Settings) : Overrides Unit Unit where
  newNodeStatus := ()
  getNeededCount := fun _ => p.brancheCount
  stallNode := id
  stallLookup := id
  closeNode := id

/-- The distance of a node to the target. -/
def distance (p : Settings) (l : CKadLookup σ ρ) (pNode : ℕ) : ℕ := l.id ^^^ p.nodeID pNode

/-- A node is put into the map by its distance, unless there is one at this distance. -/
def insertNode (p : Settings) (l : CKadLookup σ ρ) (nodes : OrderedMap ℕ ℕ) (pNode : ℕ) :
    OrderedMap ℕ ℕ :=
  if (nodes.get (distance p l pNode)).isSome then nodes
  else nodes.insert (distance p l pNode) pNode

/-- The nodes of an answer that the routing table takes, as `CKadHandler::HandleNodeRes` puts
them into a map. -/
def foundNodes (p : Settings) (l : CKadLookup σ ρ) (named : List ℕ) : OrderedMap ℕ ℕ :=
  named.foldl (insertNode p l) empty

/-- `CKadHandler::HandleNodeRes`, up to the call of `OnCloserNodes`. -/
def countNamed (p : Settings) (uNow pNode : ℕ) (queued : ℕ → Bool) (named : List ℕ)
    (l : CKadLookup σ ρ) : CKadLookup σ ρ × ℕ :=
  addNodes (uNow + p.requestTimeOut) pNode (distance p l pNode) queued (foundNodes p l named) l

/-- An answer with closer nodes. -/
def nodesAnswered (p : Settings) (uNow pNode : ℕ) (queued : ℕ → Bool) (named : List ℕ)
    (l : CKadLookup Unit Unit) : CKadLookup Unit Unit :=
  let counted := countNamed p uNow pNode queued named l
  (onCloserNodes pNode counted.2 counted.1).1

/-- What can happen to a lookup that is not derived. -/
inductive Op
  /-- `CKadLookup::Process`, with what the routing table comes up with. -/
  | process (uNow : ℕ) (candidates : List Candidate)
  /-- A node names nodes; which requests can be queued. -/
  | nodesAnswered (uNow pNode : ℕ) (queued : ℕ → Bool) (named : List ℕ)
  /-- The connection to a node is lost. -/
  | disconnect (pNode : ℕ)
  /-- The lookup is started. -/
  | start
  /-- The lookup is stopped. -/
  | stop

/-- What happens to a lookup that is not derived. -/
def step (p : Settings) (l : CKadLookup Unit Unit) : Op → CKadLookup Unit Unit
  | .process uNow candidates => processLookup (plain p) p.requestTimeOut uNow candidates l
  | .nodesAnswered uNow pNode queued named => nodesAnswered p uNow pNode queued named l
  | .disconnect pNode => disconnect pNode l
  | .start => initOperation l
  | .stop => cleanUpNodes l

/-- A lookup after a run. -/
def run (p : Settings) (l : CKadLookup Unit Unit) (ops : List Op) : CKadLookup Unit Unit :=
  ops.foldl (step p) l

end NeoLoader.KadLookup
