import NeoLoader.KadLookup

/-!
# Relays of a route

A relay is a lookup that asks the closest nodes for an up link. Beside what the code keeps
for a node there is whether its request for an up link is open, neither answered nor out
of time.
-/

namespace NeoLoader.KadRelay

open KeyMap KeyMap.OrderedMap KadLookup

structure SRelayState where
  error : String
  /-- The node has an open request for an up link. -/
  pending : Bool
  deriving DecidableEq, Repr

/-- What `CKadRelay` adds to a lookup. -/
structure SRelay where
  brancheCount : ℤ
  pendingRelays : ℤ
  lastReset : ℕ
  /-- The nodes of `m_UpLink`. -/
  upLink : List ℕ
  /-- The nodes of `m_DownLink`. -/
  downLink : Option (List ℕ)
  deriving DecidableEq, Repr

/-- What a relay goes by. -/
structure Settings extends KadLookup.Settings where
  /-- The identifier of the own node. -/
  ownID : ℕ
  /-- `RetentionTime` in milliseconds. -/
  retentionTime : ℕ

/-- A relay. -/
abbrev CKadRelay := CKadLookup SRelayState SRelay

/-- The relay with another number of pending relays. -/
def addPending (n : ℤ) (l : CKadRelay) : CKadRelay :=
  { l with own := { l.own with pendingRelays := l.own.pendingRelays + n } }

/-- The request of a node is open or not. -/
def setPending (pending : Bool) (s : SNodeStatus SRelayState) : SNodeStatus SRelayState :=
  s.setOwn fun state => { state with pending := pending }

/-- A node has answered, with an error or without. -/
def setError (error : String) (s : SNodeStatus SRelayState) : SNodeStatus SRelayState :=
  s.setOwn fun state => { state with error := error }

/-- `CKadRelay::NodeStalling`. -/
def nodeStalling (r : SRelay) : SRelay :=
  if 0 < r.pendingRelays then { r with pendingRelays := r.pendingRelays - 1 } else r

/-- What a relay overrides. A request that runs out of time is no longer open. -/
def overrides (p : Settings) : Overrides SRelayState SRelay where
  newNodeStatus := ⟨"", false⟩
  getNeededCount := fun _ => p.brancheCount
  stallNode := fun state => { state with pending := false }
  stallLookup := nodeStalling
  closeNode := id

/-- `CKadRelay::IsNodeUsed`. -/
def isNodeUsed (l : CKadRelay) (pNode : ℕ) : Bool :=
  l.own.upLink.contains pNode || (l.own.downLink.getD []).contains pNode ||
    match l.nodes.get pNode with
    | none => false
    | some s => s.own.error ≠ "" || s.uTimeOut.isSome

/-- A request for an up link has been sent. -/
def expectUpLink (pNode uTimeOut : ℕ) (l : CKadRelay) : CKadRelay :=
  (addPending 1 (l.modifyNode pNode fun s => setPending true (s.await uTimeOut))).tell
      (HistoryCall.expectResponse pNode)

/-- `CKadRelay::RequestUpLink`. -/
def requestUpLink (uTimeOut pNode : ℕ) (channel queued : Bool) (l : CKadRelay) : CKadRelay × Bool :=
  match l.nodes.get pNode with
  | none => (l, false)
  | some s =>
    if channel && s.uTimeOut = none && queued then (expectUpLink pNode uTimeOut l, true)
    else (l, false)

/-- A node is asked for an up link on its own channel. -/
def askRelay (p : Settings) (uNow : ℕ) (c : Candidate) (l : CKadRelay) : CKadRelay × Bool :=
  let l := getChannel (overrides p) c.pNode c.prepared l
  requestUpLink (uNow + p.requestTimeOut) c.pNode (hasChannel l c.pNode) c.queued l

/-- A node is closer to the target than the own one. -/
def isCloser (p : Settings) (l : CKadRelay) (pNode : ℕ) : Bool :=
  distance p.toSettings l pNode < l.id ^^^ p.ownID

/-- The loop of `CKadRelay::Process` over the nodes of the routing table. -/
def askRelays (p : Settings) (uNow : ℕ) : List Candidate → ℤ → CKadRelay → CKadRelay
  | [], _, l => l
  | c :: rest, askForRelay, l =>
    if askForRelay ≤ 0 then l
    else if l.jumpCount = 0 && !isCloser p l c.pNode then l
    else if isNodeUsed l c.pNode then askRelays p uNow rest askForRelay l
    else
      match askRelay p uNow c l with
      | (l, true) => askRelays p uNow rest (askForRelay - 1) l
      | (l, false) => askRelays p uNow rest askForRelay l

/-- Number of nodes that are still to be asked for an up link. -/
def askForRelay (l : CKadRelay) : ℤ :=
  l.own.brancheCount - min l.own.brancheCount (l.own.pendingRelays + l.own.upLink.length)

/-- The nodes without a channel are removed and may be asked again. -/
def resetNodes (uNow : ℕ) (l : CKadRelay) : CKadRelay :=
  initOperation
    { l with
      nodes := l.nodes.filter fun _ s => s.pChannel.isSome
      own := { l.own with lastReset := uNow } }

/-- The reset of `CKadRelay::Process`, from time to time. -/
def reset (p : Settings) (uNow : ℕ) (l : CKadRelay) : CKadRelay :=
  if p.retentionTime / 2 < uNow - l.own.lastReset then resetNodes uNow l else l

/-- The end of `CKadRelay::Process`, when no relay is pending. -/
def closeUnneeded (l : CKadRelay) : CKadRelay :=
  if l.own.pendingRelays = 0 then { l with nodes := l.nodes.mapEntries fun _ s => s.close } else l

/-- The links of a relay have other nodes. -/
def setLinks (upLink : List ℕ) (downLink : Option (List ℕ)) (l : CKadRelay) : CKadRelay :=
  { l with own := { l.own with upLink := upLink, downLink := downLink } }

/-- What `CKadRelay::Process` does once the lookup is not active. -/
def lookForRelays (p : Settings) (uNow : ℕ) (relays : List Candidate) (l : CKadRelay) :
    CKadRelay :=
  let l := reset p uNow l
  closeUnneeded (askRelays p uNow relays (askForRelay l) l)

/-- `CKadRelay::Process`, every 100 ms, apart from the frames of the links. -/
def processRelay (p : Settings) (uNow : ℕ) (candidates relays : List Candidate) (l : CKadRelay) :
    CKadRelay :=
  let l := processLookup (overrides p) p.requestTimeOut uNow candidates l
  if l.lookupState = ELookupState.eLookupActive then l else lookForRelays p uNow relays l

/-- `CKadRelay::OnCloserNodes`. -/
def onCloserRelay (p : Settings) (uNow pNode closerCount : ℕ) (queued : Bool) (l : CKadRelay) :
    CKadRelay :=
  match onCloserNodes pNode closerCount l with
  | (l, false) => l
  | (l, true) =>
    if (1 < l.jumpCount || isCloser p l pNode) && !isNodeUsed l pNode then
      (requestUpLink (uNow + p.requestTimeOut) pNode true queued l).1
    else l

/-- An answer with closer nodes. -/
def nodesAnswered (p : Settings) (uNow pNode : ℕ) (queued : ℕ → Bool) (named : List ℕ)
    (routeQueued : Bool) (l : CKadRelay) : CKadRelay :=
  let counted := countNamed p.toSettings uNow pNode queued named l
  onCloserRelay p uNow pNode counted.2 routeQueued counted.1

/-- The node has become part of the up link and is taken out of the lookup. -/
def addUpLink (pNode : ℕ) (l : CKadRelay) : CKadRelay :=
  ({ l with
    nodes := l.nodes.erase pNode
    own := { l.own with upLink := l.own.upLink ++ [pNode] } }).tell (HistoryCall.registerResponse pNode)

/-- `CKadRelay::UpLinkResponse` counts the response of a node. -/
def countResponse (uTimeOut : Option ℕ) (l : CKadRelay) : CKadRelay :=
  if uTimeOut ≠ some 0 ∧ 0 < l.own.pendingRelays then addPending (-1) l
  else l

/-- `CKadRelay::UpLinkResponse`. -/
def upLinkResponse (pNode : ℕ) (error : String) (l : CKadRelay) : CKadRelay :=
  match l.nodes.get pNode with
  | none => l
  | some s =>
    let l := (countResponse s.uTimeOut l).modifyNode pNode fun s =>
      setError error (setPending false s.answered)
    if error ≠ "" then l else addUpLink pNode l

/-- What can happen to a relay. -/
inductive Op
  /-- `CKadRelay::Process`, with what the routing table comes up with for both loops. -/
  | process (uNow : ℕ) (candidates relays : List Candidate)
  /-- A node names nodes; which requests can be queued. -/
  | nodesAnswered (uNow pNode : ℕ) (queued : ℕ → Bool) (named : List ℕ) (routeQueued : Bool)
  /-- A node responds to a request for an up link, or not to one. -/
  | upLinkResponse (pNode : ℕ) (error : String)
  /-- The connection to a node is lost. -/
  | disconnect (pNode : ℕ)
  /-- The links have other nodes. -/
  | setLinks (upLink : List ℕ) (downLink : Option (List ℕ))
  /-- The relay is started. -/
  | start
  /-- The relay is stopped. -/
  | stop

/-- What happens to a relay. -/
def step (p : Settings) (l : CKadRelay) : Op → CKadRelay
  | .process uNow candidates relays => processRelay p uNow candidates relays l
  | .nodesAnswered uNow pNode queued named routeQueued =>
    nodesAnswered p uNow pNode queued named routeQueued l
  | .upLinkResponse pNode error => upLinkResponse pNode error l
  | .disconnect pNode => disconnect pNode l
  | .setLinks upLink downLink => setLinks upLink downLink l
  | .start => initOperation l
  | .stop => cleanUpNodes l

/-- A relay after a run. -/
def run (p : Settings) (l : CKadRelay) (ops : List Op) : CKadRelay := ops.foldl (step p) l

/-- A new relay. -/
def new (id : ℕ) (hopLimit jumpCount brancheCount : ℤ) (uNow : ℕ) (downLink : Option (List ℕ)) :
    CKadRelay :=
  CKadLookup.new id hopLimit jumpCount
    { brancheCount := brancheCount, pendingRelays := 0, lastReset := uNow, upLink := []
      downLink := downLink }

end NeoLoader.KadRelay
