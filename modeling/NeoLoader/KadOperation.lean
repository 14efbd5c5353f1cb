import NeoLoader.KadLookup

/-!
# Operations of a lookup

An operation is a lookup that has nodes execute calls, store and load. It hands shares of
its spread share to nodes, as proxies or for their own answer only, and gathers their
results. A script may take part; what it does while it is called is given as a list. What
has been received and passed on is kept beside what the code keeps.
-/

namespace NeoLoader.KadOperation

open KeyMap KeyMap.OrderedMap KadLookup

/-- What a transaction of an operation is about. -/
inductive Task
  /-- A call. -/
  | call
  /-- A store. -/
  | store
  /-- A load. -/
  | load
  deriving DecidableEq, Repr

inductive EOpState
  /-- Nothing was asked of the node. -/
  | eNoOp
  /-- The node was asked to be a proxy. -/
  | eOpPending
  /-- The node is a proxy. -/
  | eOpProxy
  /-- The node answers for itself. -/
  | eOpStateless
  /-- The node has failed. -/
  | eOpFailed
  deriving DecidableEq, Repr

structure SOpStatus where
  results : ℕ
  done : Bool
  deriving DecidableEq, Repr

/-- The constructor of `SOpStatus`. -/
def SOpStatus.new : SOpStatus := ⟨0, false⟩

/-- A result more, which may be the last one. -/
def SOpStatus.count (last : Bool) (status : SOpStatus) : SOpStatus :=
  ⟨status.results + 1, status.done || last⟩

/-- What `SOpProgress` adds to the status of a node. -/
structure SOpProgress where
  shares : ℤ
  opState : EOpState
  calls : OrderedMap ℕ SOpStatus
  stores : OrderedMap ℕ SOpStatus
  loads : OrderedMap ℕ SOpStatus

/-- `GetCalls`, `GetStores` and `GetLoads`. -/
def SOpProgress.get (progress : SOpProgress) : Task → OrderedMap ℕ SOpStatus
  | .call => progress.calls
  | .store => progress.stores
  | .load => progress.loads

/-- The progress with other transactions. -/
def SOpProgress.set (progress : SOpProgress) (m : OrderedMap ℕ SOpStatus) : Task → SOpProgress
  | .call => { progress with calls := m }
  | .store => { progress with stores := m }
  | .load => { progress with loads := m }

/-- A payload that was loaded. -/
structure Payload where
  path : String
  data : ℕ
  deriving DecidableEq, Repr

/-- A result of a transaction. -/
structure Result (β : Type) where
  xid : ℕ
  more : Bool
  /-- `ERR`, if there is one. -/
  err : Option String
  /-- `RET` of a call, `EXP` of a store or `PLD` of a load. -/
  body : β
  deriving DecidableEq, Repr

/-- A result of a call, a store or a load. -/
inductive TaskResult
  /-- Of a call. -/
  | call (r : Result ℕ)
  /-- Of a store. -/
  | store (r : Result ℕ)
  /-- Of a load. -/
  | load (r : Result (List Payload))
  deriving DecidableEq, Repr

namespace TaskResult

/-- What the result is of. -/
def task : TaskResult → Task
  | .call _ => Task.call
  | .store _ => Task.store
  | .load _ => Task.load

/-- The transaction of the result. -/
def xid : TaskResult → ℕ
  | .call r => r.xid
  | .store r => r.xid
  | .load r => r.xid

/-- More results are to come. -/
def more : TaskResult → Bool
  | .call r => r.more
  | .store r => r.more
  | .load r => r.more

/-- The payloads of a load without an error. -/
def payloads : TaskResult → List Payload
  | .load r => if r.err.isSome then [] else r.body
  | _ => []

end TaskResult

/-- What has happened to an operation. -/
structure Trace where
  /-- The shares that were handed to nodes. -/
  handed : List ℤ
  /-- The results received, with the node if it is one of the operation. -/
  received : List (Option ℕ × TaskResult)
  /-- The results passed on. -/
  sent : List TaskResult
  /-- The transactions that all share holders were found done with. -/
  settled : List (Task × ℕ)
  /-- The calls that were answered here, and not given to any node. -/
  answered : List ℕ

structure CKadOperator where
  /-- `IsValid`. -/
  valid : Bool
  /-- `m_RequestMap`. -/
  requests : OrderedMap ℕ SOpStatus
  responses : List (Result ℕ)

/-- What `CKadOperation` adds to a lookup. -/
structure SOperation where
  brancheCount : ℤ
  spreadCount : ℤ
  spreadShare : ℤ
  inRange : Bool
  outOfNodes : Bool
  manualMode : Bool
  activeCount : ℤ
  failedCount : ℤ
  totalDoneJobs : ℕ
  totalReplys : ℕ
  callMap : OrderedMap ℕ SOpStatus
  storeMap : OrderedMap ℕ SOpStatus
  loadMap : OrderedMap ℕ SOpStatus
  loadFilter : OrderedMap ℕ (List ℕ)
  pOperator : Option CKadOperator
  /-- What has happened. -/
  trace : Trace

/-- `m_CallMap`, `m_StoreMap` and `m_LoadMap`. -/
def SOperation.jobs (o : SOperation) : Task → OrderedMap ℕ SOpStatus
  | .call => o.callMap
  | .store => o.storeMap
  | .load => o.loadMap

/-- The operation with other transactions. -/
def SOperation.setJobs (o : SOperation) (m : OrderedMap ℕ SOpStatus) : Task → SOperation
  | .call => { o with callMap := m }
  | .store => { o with storeMap := m }
  | .load => { o with loadMap := m }

/-- An operation. -/
abbrev CKadOperation := CKadLookup SOpProgress SOperation

/-- What an operation goes by. -/
structure Settings extends KadLookup.Settings where
  /-- `GetMaxDistance` of the routing table. -/
  maxDistance : ℕ
  /-- `GetFP`, the fingerprint of data. -/
  getFP : ℕ → ℕ

/-- What an operation overrides. -/
def overrides (p : Settings) : Overrides SOpProgress SOperation where
  newNodeStatus := ⟨0, EOpState.eNoOp, empty, empty, empty⟩
  getNeededCount := fun l => min p.brancheCount l.own.brancheCount
  stallNode := fun progress => { progress with shares := 0 }
  stallLookup := id
  closeNode := fun progress => { progress with shares := 0, opState := EOpState.eOpFailed }

/-- The operation with other members. -/
def modifyOwn (f : SOperation → SOperation) (l : CKadOperation) : CKadOperation :=
  { l with own := f l.own }

/-- Something has happened. -/
def SOperation.note (f : Trace → Trace) (o : SOperation) : SOperation :=
  { o with trace := f o.trace }

section Jobs

/-- The calls that nodes are given. -/
def SOperation.callJobs (o : SOperation) : OrderedMap ℕ SOpStatus :=
  match o.pOperator with
  | none => o.callMap
  | some operator => operator.requests

/-- There is a call, a store or a load. -/
def SOperation.hasJobs (o : SOperation) : Bool :=
  o.callJobs.size ≠ 0 || o.storeMap.size ≠ 0 || o.loadMap.size ≠ 0

/-- The transactions that were not yet dealt are. -/
def deal (jobs statuses : OrderedMap ℕ SOpStatus) : OrderedMap ℕ SOpStatus :=
  jobs.entries.foldl (fun m e => if (m.get e.1).isSome then m else m.insert e.1 SOpStatus.new) statuses

/-- `CKadOperation::SendRequests`. -/
def sendRequests (o : SOperation) (progress : SOpProgress) : SOpProgress :=
  { progress with
    calls := deal o.callJobs progress.calls
    stores := deal o.storeMap progress.stores
    loads := deal o.loadMap progress.loads }

/-- There are transactions that were not yet dealt, going by their numbers. -/
def hasNew (o : SOperation) (progress : SOpProgress) : Bool :=
  progress.calls.size ≠ o.callJobs.size || progress.stores.size ≠ o.storeMap.size ||
    progress.loads.size ≠ o.loadMap.size

/-- The transactions done and the results of a map. -/
def countDone (m : OrderedMap ℕ SOpStatus) : ℕ × ℕ :=
  (m.entries.countP fun e => e.2.done, (m.entries.map fun e => e.2.results).sum)

end Jobs

section Shares

/-- A node that `CKadOperation::Process` counts as a share holder. -/
def holdsShares (s : SNodeStatus SOpProgress) : Bool :=
  s.own.opState ≠ EOpState.eOpFailed && s.own.shares ≠ 0 && s.pChannel.isSome

/-- The share of the own node. -/
def ownShare (o : SOperation) : ℤ := if o.inRange then 1 else 0

/-- `UsedShares` of `CKadOperation::Process`. -/
def usedShares (l : CKadOperation) : ℤ :=
  ownShare l.own + l.nodes.total fun _ s => if holdsShares s then s.own.shares else 0

/-- `ShareHolders` of `CKadOperation::Process`. -/
def shareHolders (l : CKadOperation) : ℤ :=
  l.nodes.total fun _ s => if holdsShares s then 1 else 0

/-- The shares of all nodes. -/
def allShares (l : CKadOperation) : ℤ := ownShare l.own + l.nodes.total fun _ s => s.own.shares

/-- The nodes with shares. -/
def allHolders (l : CKadOperation) : ℤ :=
  l.nodes.total fun _ s => if s.own.shares ≠ 0 then 1 else 0

/-- A node is given a share. -/
def hand (pNode : ℕ) (shares : ℤ) (f : SOpProgress → SOpProgress) (l : CKadOperation) :
    CKadOperation :=
  modifyOwn (SOperation.note fun trace => { trace with handed := trace.handed ++ [shares] })
    (l.modifyNode pNode (SNodeStatus.setOwn fun progress => f { progress with shares := shares }))

/-- `CKadOperation::RequestStateless`. -/
def requestStateless (pNode : ℕ) (l : CKadOperation) : CKadOperation :=
  hand pNode 1 (fun progress => sendRequests l.own { progress with opState := EOpState.eOpStateless }) l

/-- `CKadOperation::RequestProxying` with a number of shares. -/
def requestShares (uTimeOut pNode : ℕ) (shares : ℤ) (queued : Bool) (l : CKadOperation) :
    CKadOperation :=
  if queued then
    ((hand pNode shares (fun progress => { progress with opState := EOpState.eOpPending })
      l).modifyNode pNode (SNodeStatus.await uTimeOut)).tell (HistoryCall.expectResponse pNode)
  else l

/-- The shares for a node, such that there is something left for others, or all of them. -/
def splitShares (rand : ℕ) (brancheCount freeShares shareHolders : ℤ) : ℤ :=
  if shareHolders + 1 < brancheCount then
    let maxShares := freeShares - (brancheCount - shareHolders - 1)
    if maxShares < 2 then 1 else 1 + (rand : ℤ) % (maxShares - 1)
  else freeShares

/-- A node that may be given shares, with a random number. -/
structure Offer extends Candidate where
  /-- `rand()`. -/
  rand : ℕ
  deriving DecidableEq, Repr

/-- `CKadOperation::RequestProxying` with the shares and holders there are. -/
def requestProxying (uTimeOut : ℕ) (c : Offer) (freeShares holders : ℤ) (l : CKadOperation) :
    CKadOperation :=
  match l.nodes.get c.pNode with
  | none => l
  | some s =>
    if s.uTimeOut.isSome then l
    else
      requestShares uTimeOut c.pNode (splitShares c.rand l.own.brancheCount freeShares holders) c.queued l

/-- The shares of a node. -/
def sharesOf (l : CKadOperation) (pNode : ℕ) : ℤ :=
  match l.nodes.get pNode with
  | none => 0
  | some s => s.own.shares

/-- Nothing was asked of a node, and it has a channel. -/
def isUntried (l : CKadOperation) (pNode : ℕ) : Bool :=
  match l.nodes.get pNode with
  | none => false
  | some s => s.pChannel.isSome && s.own.opState = EOpState.eNoOp

/-- A node of the routing table is given shares. -/
def offerShares (uTimeOut : ℕ) (c : Offer) (freeShares holders : ℤ) (l : CKadOperation) :
    CKadOperation :=
  if 1 < l.hopLimit then requestProxying uTimeOut c freeShares holders l
  else requestStateless c.pNode l

/-- The loop of `CKadOperation::Process` over the nodes of the routing table, with the shares
that are left. -/
def handOut (p : Settings) (uTimeOut : ℕ) : List Offer → ℤ → ℤ → CKadOperation → CKadOperation × ℤ
  | [], freeShares, _, l => (l, freeShares)
  | c :: rest, freeShares, holders, l =>
    if freeShares ≤ 0 then (l, freeShares)
    else if l.jumpCount = 0 && p.maxDistance < distance p.toSettings l c.pNode then (l, freeShares)
    else
      let l := getChannel (overrides p) c.pNode c.prepared l
      if isUntried l c.pNode then
        let l := offerShares uTimeOut c freeShares holders l
        if sharesOf l c.pNode = 0 then handOut p uTimeOut rest freeShares holders l
        else handOut p uTimeOut rest (freeShares - sharesOf l c.pNode) (holders + 1) l
      else handOut p uTimeOut rest freeShares holders l

/-- New transactions are sent to the share holders. -/
def sendNew (l : CKadOperation) : CKadOperation :=
  { l with
    nodes := l.nodes.mapEntries fun _ s =>
      if holdsShares s && (s.own.opState = EOpState.eOpStateless ||
          s.own.opState = EOpState.eOpProxy) && hasNew l.own s.own then
        s.setOwn (sendRequests l.own)
      else s }

/-- The numbers that `CKadOperation::Process` keeps. -/
def countJobs (l : CKadOperation) : CKadOperation :=
  let calls := countDone l.own.callJobs
  let stores := countDone l.own.storeMap
  let loads := countDone l.own.loadMap
  modifyOwn (fun o => { o with
      activeCount := shareHolders l
      failedCount := l.nodes.total fun _ s => if s.own.opState = EOpState.eOpFailed then 1 else 0
      totalDoneJobs := calls.1 + stores.1 + loads.1
      totalReplys := calls.2 + stores.2 + loads.2 }) l

/-- Shares are handed out as long as there are some. -/
def spreadShares (p : Settings) (uNow : ℕ) (offers : List Offer) (l : CKadOperation) :
    CKadOperation :=
  let handed := handOut p (uNow + p.requestTimeOut) offers (l.own.spreadShare - usedShares l)
    (shareHolders l) l
  modifyOwn (fun o => { o with outOfNodes := 0 < handed.2 }) handed.1

/-- `CKadOperation::Process` after the lookup and the script, every 100 ms. -/
def spread (p : Settings) (uNow : ℕ) (offers : List Offer) (l : CKadOperation) : CKadOperation :=
  if l.lookupState = ELookupState.eLookupActive then l
  else if l.hopLimit = 0 || l.hopLimit = 1 && !l.own.hasJobs then l
  else if l.own.manualMode then countJobs (sendNew l)
  else spreadShares p uNow offers (countJobs (sendNew l))

/-- `CKadOperation::OnCloserNodes`. -/
def onCloserOperation (pNode closerCount : ℕ) (l : CKadOperation) : CKadOperation :=
  match onCloserNodes pNode closerCount l with
  | (l, false) => l
  | (l, true) =>
    match l.nodes.get pNode with
    | none => l
    | some s =>
      if !l.own.manualMode && s.own.opState = EOpState.eNoOp && l.own.hasJobs then
        requestStateless pNode l
      else l

/-- `CKadOperation::AddNode`, called by the script. -/
def addNode (p : Settings) (uNow : ℕ) (c : Offer) (bStateless : Bool) (shares : ℤ)
    (l : CKadOperation) : CKadOperation :=
  let l := getChannel (overrides p) c.pNode c.prepared l
  if isUntried l c.pNode then
    if bStateless then if l.own.hasJobs then requestStateless c.pNode l else l
    else if shares ≠ 0 then requestShares (uNow + p.requestTimeOut) c.pNode shares c.queued l
    else if l.own.spreadShare - allShares l < 1 then l
    else
      requestProxying (uNow + p.requestTimeOut) c (l.own.spreadShare - allShares l) (allHolders l) l
  else l

/-- `CKadOperation::HandleError`. -/
def handleError (pNode : ℕ) (l : CKadOperation) : CKadOperation :=
  l.modifyNode pNode (SNodeStatus.setOwn fun progress =>
    { progress with shares := 0, opState := EOpState.eOpFailed })

/-- `CKadOperation::InitOperation`, with a random number. -/
def initOperation (rand : ℕ) (l : CKadOperation) : CKadOperation :=
  let share := if l.own.spreadShare = 0 then l.own.spreadCount else l.own.spreadShare
  let branche :=
    if 0 < l.jumpCount then if rand % 4 = 0 then 1 else 2
    else if 1 < l.hopLimit then
      if rand % 10 < 2 then 1 else if rand % 10 < 5 then 3 else 2
    else if l.hopLimit = 1 then share else l.own.brancheCount
  let l := modifyOwn (fun o => { o with spreadShare := share, brancheCount := branche }) l
  if !l.own.manualMode && l.hopLimit = 1 && l.own.hasJobs then
    l.setState ELookupState.eLookupActive
  else l

end Shares

end NeoLoader.KadOperation
