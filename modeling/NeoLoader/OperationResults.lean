import NeoLoader.KadOperation

/-!
# Results of an operation

Results of calls, stores and loads are counted for the node they come from, and passed on
without the mark that more are to come when all share holders are done. Payloads that were
loaded are passed on once.
-/

namespace NeoLoader.OperationResults

open KeyMap KeyMap.OrderedMap KadLookup KadOperation

section Done

/-- A transaction counts a result, and is put in if it is not there. -/
def countIn (m : OrderedMap ℕ SOpStatus) (xid : ℕ) (last : Bool) : OrderedMap ℕ SOpStatus :=
  m.insert xid (((m.get xid).getD SOpStatus.new).count last)

/-- The progress of a node counts a result. -/
def countResult (r : TaskResult) (progress : SOpProgress) : SOpProgress :=
  progress.set (countIn (progress.get r.task) r.xid !r.more) r.task

/-- A node has no shares, or is done with a transaction. -/
def isNodeDone (task : Task) (xid : ℕ) (s : SNodeStatus SOpProgress) : Bool :=
  s.own.shares = 0 || match (s.own.get task).get xid with
    | none => false
    | some status => status.done

/-- `CKadOperation::IsDone`. -/
def isDone (task : Task) (xid : ℕ) (l : CKadOperation) : Bool :=
  (l.nodes.entries.all fun e => isNodeDone task xid e.2) && l.own.spreadShare ≤ allShares l

/-- The node, if it has a progress. -/
def known (pNode : Option ℕ) (l : CKadOperation) : Option ℕ :=
  pNode.filter fun k => (l.nodes.get k).isSome

/-- A result is noted as received. -/
def noteReceived (pNode : Option ℕ) (r : TaskResult) (l : CKadOperation) : CKadOperation :=
  modifyOwn (SOperation.note fun trace =>
    { trace with received := trace.received ++ [(known pNode l, r)] }) l

/-- A result is counted for the node it comes from. -/
def receive (pNode : Option ℕ) (r : TaskResult) (l : CKadOperation) : CKadOperation :=
  match known pNode l with
  | none => noteReceived pNode r l
  | some k => (noteReceived pNode r l).modifyNode k (SNodeStatus.setOwn (countResult r))

/-- A transaction is noted as settled, if all share holders are done. -/
def noteSettled (task : Task) (xid : ℕ) (l : CKadOperation) : CKadOperation :=
  if isDone task xid l then
    modifyOwn (SOperation.note fun trace =>
      { trace with settled := trace.settled ++ [(task, xid)] }) l
  else l

/-- A transaction of the operation counts a result, and whether all share holders are done. -/
def settle (task : Task) (xid : ℕ) (l : CKadOperation) : CKadOperation :=
  modifyOwn (fun o => o.setJobs (countIn (o.jobs task) xid (isDone task xid l)) task) (noteSettled task xid l)

/-- A call counts a result if it came from elsewhere. -/
def settleCall (xid : ℕ) (l : CKadOperation) : CKadOperation :=
  match l.own.callMap.get xid with
  | none => l
  | some _ => settle Task.call xid l

/-- The script is another. -/
def setOperator (f : CKadOperator → CKadOperator) (l : CKadOperation) : CKadOperation :=
  modifyOwn (fun o => { o with pOperator := o.pOperator.map f }) l

/-- A request of the script counts a result. -/
def settleRequest (xid : ℕ) (l : CKadOperation) : CKadOperation :=
  setOperator (fun operator => { operator with
      requests := operator.requests.modify xid (SOpStatus.count (isDone Task.call xid l)) }) l

/-- A transaction is done. -/
def jobDone (task : Task) (xid : ℕ) (l : CKadOperation) : Bool :=
  match (l.own.jobs task).get xid with
  | none => false
  | some status => status.done

/-- The result, marked by whether more results are to come. -/
def mark {β : Type} (task : Task) (r : Result β) (l : CKadOperation) : Result β :=
  { r with more := !jobDone task r.xid l }

end Done

section Script

/-- What a script does while it is called. -/
inductive ScriptOp
  /-- `CKadOperator::AddResponse`. -/
  | addResponse (xid ret : ℕ) (bMore : Bool)
  /-- `CKadOperator::AddRequest`, with a number not yet used. -/
  | addRequest (xid : ℕ)
  /-- `CKadOperation::AddNode`. -/
  | addNode (uNow : ℕ) (c : Offer) (bStateless : Bool) (shares : ℤ)
  /-- `CKadOperation::FindCloser`. -/
  | findCloser

/-- A call is answered here. -/
def noteAnswered (xid : ℕ) (l : CKadOperation) : CKadOperation :=
  modifyOwn (SOperation.note fun trace => { trace with answered := trace.answered ++ [xid] }) l

/-- A call that is not given to nodes counts a response of the script. -/
def countResponse (xid : ℕ) (bMore : Bool) (l : CKadOperation) : CKadOperation :=
  let l := modifyOwn
    (fun o => { o with callMap := o.callMap.modify xid (SOpStatus.count !bMore) }) l
  if bMore then l else noteAnswered xid l

/-- A response of the script waits to be passed on. -/
def queueResponse (xid ret : ℕ) (l : CKadOperation) : CKadOperation :=
  setOperator (fun operator => { operator with
      responses := operator.responses ++ [mark Task.call ⟨xid, false, none, ret⟩ l] }) l

/-- `CKadOperator::AddResponse`. -/
def addResponse (xid ret : ℕ) (bMore : Bool) (l : CKadOperation) : CKadOperation :=
  match l.own.callMap.get xid, l.own.pOperator with
  | some _, some operator =>
    if (operator.requests.get xid).isSome then queueResponse xid ret l
    else queueResponse xid ret (countResponse xid bMore l)
  | _, _ => l

/-- A request of the script. -/
def addRequest (xid : ℕ) (l : CKadOperation) : CKadOperation :=
  setOperator (fun operator => { operator with
      requests :=
        if (operator.requests.get xid).isSome then operator.requests
        else operator.requests.insert xid SOpStatus.new }) l

/-- `CKadOperation::FindCloser`. -/
def findCloser (l : CKadOperation) : CKadOperation :=
  if l.lookupState = ELookupState.eNoLookup then l.setState ELookupState.eLookupActive else l

/-- The script does something. -/
def scriptStep (p : KadOperation.Settings) (l : CKadOperation) : ScriptOp → CKadOperation
  | .addResponse xid ret bMore => addResponse xid ret bMore l
  | .addRequest xid => addRequest xid l
  | .addNode uNow c bStateless shares => KadOperation.addNode p uNow c bStateless shares l
  | .findCloser => findCloser l

/-- The script is called, if it is valid. -/
def runScript (p : KadOperation.Settings) (ops : List ScriptOp) (l : CKadOperation) : CKadOperation :=
  match l.own.pOperator with
  | none => l
  | some operator => if operator.valid then ops.foldl (scriptStep p) l else l

/-- There is a valid script. -/
def hasScript (l : CKadOperation) : Bool :=
  match l.own.pOperator with
  | none => false
  | some operator => operator.valid

/-- What a script does with a response, and whether it takes it. -/
structure OnResponse where
  /-- What it does. -/
  ops : List ScriptOp
  /-- It takes the response, so that this is not passed on. -/
  intercepts : Bool

end Script

section Results

/-- Results are passed on. -/
def send (rs : List TaskResult) (l : CKadOperation) : CKadOperation :=
  modifyOwn (SOperation.note fun trace => { trace with sent := trace.sent ++ rs }) l

/-- The responses of the script are taken, `CKadOperator::GetResponses`. -/
def getResponses (l : CKadOperation) : List (Result ℕ) :=
  match l.own.pOperator with
  | none => []
  | some operator => operator.responses

/-- They are taken out. -/
def clearResponses (l : CKadOperation) : CKadOperation :=
  setOperator (fun operator => { operator with responses := [] }) l

/-- A result of a call is counted. -/
def countCall (pNode : Option ℕ) (r : Result ℕ) (l : CKadOperation) : CKadOperation :=
  settleRequest r.xid (settleCall r.xid (receive pNode (TaskResult.call r) l))

/-- The script is asked about a response: one without an error, to a request of its own list. -/
def isConsulted (r : Result ℕ) (l : CKadOperation) : Bool :=
  r.err.isNone && match l.own.pOperator with
    | none => false
    | some operator => operator.valid && (operator.requests.get r.xid).isSome

/-- The script is called for a response that it is asked about. -/
def callScript (p : KadOperation.Settings) (r : Result ℕ) (script : OnResponse) (l : CKadOperation) : CKadOperation :=
  if isConsulted r l then runScript p script.ops l else l

/-- A result of a call is passed on, if the call came from elsewhere and the script does not
take it. -/
def passCall (r : Result ℕ) (taken : Bool) (l : CKadOperation) : List (Result ℕ) :=
  if taken then []
  else if (l.own.callMap.get r.xid).isSome then [mark Task.call r l]
  else []

/-- The loop of `CKadOperation::AddCallRes`. -/
def addCallResults (p : KadOperation.Settings) (pNode : Option ℕ) :
    List (Result ℕ × OnResponse) → CKadOperation → CKadOperation × List (Result ℕ)
  | [], l => (l, [])
  | (r, script) :: rest, l =>
    let counted := countCall pNode r l
    let called := callScript p r script counted
    let others := addCallResults p pNode rest called
    (others.1, passCall r (isConsulted r counted && script.intercepts) called ++ others.2)

/-- `CKadOperation::AddCallRes`. -/
def addCallRes (p : KadOperation.Settings) (pNode : Option ℕ) (results : List (Result ℕ × OnResponse))
    (l : CKadOperation) : CKadOperation × List (Result ℕ) :=
  let added := addCallResults p pNode results l
  (clearResponses added.1, added.2 ++ getResponses added.1)

/-- The loop of `CKadOperation::AddStoreRes`. -/
def addStoreRes (pNode : Option ℕ) : List (Result ℕ) → CKadOperation → CKadOperation × List (Result ℕ)
  | [], l => (l, [])
  | r :: rest, l =>
    let l := settle Task.store r.xid (receive pNode (TaskResult.store r) l)
    let others := addStoreRes pNode rest l
    (others.1, mark Task.store r l :: others.2)

/-- A payload is kept, unless its fingerprint is known. -/
def filterPayload (p : KadOperation.Settings) (acc : List ℕ × List Payload) (payload : Payload) :
    List ℕ × List Payload :=
  if p.getFP payload.data ∈ acc.1 then acc
  else (acc.1 ++ [p.getFP payload.data], acc.2 ++ [payload])

/-- The payloads of a transaction that were not yet passed on, with all fingerprints. -/
def filterPayloads (p : KadOperation.Settings) (xid : ℕ) (payloads : List Payload) (l : CKadOperation) :
    List ℕ × List Payload :=
  payloads.foldl (filterPayload p) ((l.own.loadFilter.get xid).getD [], [])

/-- The fingerprints of a transaction. -/
def setFilter (xid : ℕ) (fingerprints : List ℕ) (l : CKadOperation) : CKadOperation :=
  modifyOwn (fun o => { o with loadFilter := o.loadFilter.insert xid fingerprints }) l

/-- A result of a load: one with an error as it is marked, of others a new one with the
transaction and the payloads that were not yet passed on. -/
def passLoad (p : KadOperation.Settings) (r : Result (List Payload)) (l : CKadOperation) :
    CKadOperation × Result (List Payload) :=
  if r.err.isSome then (l, mark Task.load r l)
  else
    let filtered := filterPayloads p r.xid r.body l
    (setFilter r.xid filtered.1 l, ⟨r.xid, false, none, filtered.2⟩)

/-- The loop of `CKadOperation::AddLoadRes`. -/
def addLoadRes (p : KadOperation.Settings) (pNode : Option ℕ) :
    List (Result (List Payload)) → CKadOperation → CKadOperation × List (Result (List Payload))
  | [], l => (l, [])
  | r :: rest, l =>
    let passed := passLoad p r (settle Task.load r.xid (receive pNode (TaskResult.load r) l))
    let others := addLoadRes p pNode rest passed.1
    (others.1, passed.2 :: others.2)

end Results

section Requests

/-- How the script treats a call. -/
inductive OnCall
  /-- It fails with an error. -/
  | fails (error : String)
  /-- It handles the call fully. -/
  | handles
  /-- The call is to be given to nodes. -/
  | passes

/-- A call that was asked for. -/
structure CallRequest where
  xid : ℕ
  /-- What the script does with it. -/
  ops : List ScriptOp
  /-- How it treats it. -/
  onCall : OnCall

/-- A transaction is put in, if it is not there. -/
def addJob (task : Task) (xid : ℕ) (l : CKadOperation) : CKadOperation :=
  if ((l.own.jobs task).get xid).isSome then l
  else
    modifyOwn (fun o => o.setJobs ((o.jobs task).insert xid SOpStatus.new) task) l

/-- A call has failed in the script and is finished. -/
def failCall (xid : ℕ) (l : CKadOperation) : CKadOperation :=
  noteAnswered xid (modifyOwn
      (fun o => { o with callMap := o.callMap.modify xid fun status => ⟨status.results, true⟩ }) l)

/-- `CKadOperator::AddCallReq` for a call, with the results it leads to. -/
def scriptCall (p : KadOperation.Settings) (request : CallRequest) (l : CKadOperation) :
    CKadOperation × List (Result ℕ) :=
  let l := runScript p request.ops l
  match request.onCall with
  | .fails error => (failCall request.xid l, [⟨request.xid, false, some error, 0⟩])
  | .handles => (l, [])
  | .passes => (addRequest request.xid l, [])

/-- The loop of `CLookupProxy::AddCallReq`. -/
def addCallRequests (p : KadOperation.Settings) : List CallRequest → CKadOperation → CKadOperation × List (Result ℕ)
  | [], l => (l, [])
  | request :: rest, l =>
    if (l.own.callMap.get request.xid).isSome then addCallRequests p rest l
    else
      let l := addJob Task.call request.xid l
      if hasScript l then
        let called := scriptCall p request l
        let others := addCallRequests p rest called.1
        (others.1, called.2 ++ others.2)
      else addCallRequests p rest l

/-- `CLookupProxy::AddCallReq`. -/
def addCallReq (p : KadOperation.Settings) (requests : List CallRequest) (l : CKadOperation) :
    CKadOperation × List (Result ℕ) :=
  let added := addCallRequests p requests l
  (clearResponses added.1, added.2 ++ getResponses added.1)

/-- `CKadHandler::HandleExecuteReq` of a proxy, with the results of its own index. -/
def handleExecuteReq (p : KadOperation.Settings) (requests : List CallRequest)
    (own : List (Result ℕ × OnResponse)) (l : CKadOperation) : CKadOperation :=
  let asked := addCallReq p requests l
  if asked.1.own.inRange then
    let answered := addCallRes p none own asked.1
    send ((answered.2 ++ asked.2).map TaskResult.call) answered.1
  else send (asked.2.map TaskResult.call) asked.1

/-- `CKadHandler::HandleStoreReq` of a proxy, with the results of its own index. -/
def handleStoreReq (xids : List ℕ) (own : List (Result ℕ)) (l : CKadOperation) : CKadOperation :=
  let l := xids.foldl (fun l xid => addJob Task.store xid l) l
  if l.own.inRange then
    let answered := addStoreRes none own l
    send (answered.2.map TaskResult.store) answered.1
  else l

/-- `CKadHandler::HandleLoadReq` of a proxy, with the results of its own index. -/
def handleLoadReq (p : KadOperation.Settings) (xids : List ℕ) (own : List (Result (List Payload)))
    (l : CKadOperation) : CKadOperation :=
  let l := xids.foldl (fun l xid => addJob Task.load xid l) l
  if l.own.inRange then
    let answered := addLoadRes p none own l
    send (answered.2.map TaskResult.load) answered.1
  else l

/-- `CKadHandler::HandleExecuteRes`. -/
def handleExecuteRes (p : KadOperation.Settings) (pNode : ℕ) (results : List (Result ℕ × OnResponse))
    (l : CKadOperation) : CKadOperation :=
  let added := addCallRes p (some pNode) results l
  send (added.2.map TaskResult.call) added.1

/-- `CKadHandler::HandleStoreRes`. -/
def handleStoreRes (pNode : ℕ) (results : List (Result ℕ)) (l : CKadOperation) : CKadOperation :=
  let added := addStoreRes (some pNode) results l
  send (added.2.map TaskResult.store) added.1

/-- `CKadHandler::HandleLoadRes`. -/
def handleLoadRes (p : KadOperation.Settings) (pNode : ℕ) (results : List (Result (List Payload)))
    (l : CKadOperation) : CKadOperation :=
  let added := addLoadRes p (some pNode) results l
  send (added.2.map TaskResult.load) added.1

/-- `CLookupProxy::FlushCaches`. -/
def flushCaches (l : CKadOperation) : CKadOperation :=
  send ((getResponses l).map TaskResult.call) (clearResponses l)

/-- `CKadOperation::ProxyingResponse`, with what the script does with a proxy. -/
def proxyingResponse (p : KadOperation.Settings) (pNode : ℕ) (error : String) (ops : List ScriptOp)
    (l : CKadOperation) : CKadOperation :=
  let l := (l.tell (HistoryCall.registerResponse pNode)).modifyNode pNode SNodeStatus.answered
  if (l.nodes.get pNode).isNone then l
  else if error ≠ "" then handleError pNode l
  else
    let l := runScript p ops
      (l.modifyNode pNode (SNodeStatus.setOwn fun progress =>
        { progress with opState := EOpState.eOpProxy }))
    l.modifyNode pNode (SNodeStatus.setOwn (sendRequests l.own))

/-- An answer with closer nodes. -/
def nodesAnswered (p : KadOperation.Settings) (uNow pNode : ℕ) (queued : ℕ → Bool) (named : List ℕ)
    (l : CKadOperation) : CKadOperation :=
  let counted := countNamed p.toSettings uNow pNode queued named l
  onCloserOperation pNode counted.2 counted.1

end Requests

/-- What can happen to an operation. -/
inductive Op
  /-- `CKadLookup::Process`, with what the routing table comes up with. -/
  | process (uNow : ℕ) (candidates : List Candidate)
  /-- The rest of `CKadOperation::Process`. -/
  | spread (uNow : ℕ) (offers : List Offer)
  /-- The script is called. -/
  | script (ops : List ScriptOp)
  /-- A node names nodes; which requests can be queued. -/
  | nodesAnswered (uNow pNode : ℕ) (queued : ℕ → Bool) (named : List ℕ)
  /-- A node responds to a request to be a proxy. -/
  | proxyingResponse (pNode : ℕ) (error : String) (ops : List ScriptOp)
  /-- A node responds with an error to all requests. -/
  | handleError (pNode : ℕ)
  /-- Results of calls. -/
  | executeRes (pNode : ℕ) (results : List (Result ℕ × OnResponse))
  /-- Results of stores. -/
  | storeRes (pNode : ℕ) (results : List (Result ℕ))
  /-- Results of loads. -/
  | loadRes (pNode : ℕ) (results : List (Result (List Payload)))
  /-- Calls are asked for. -/
  | executeReq (requests : List CallRequest) (own : List (Result ℕ × OnResponse))
  /-- Stores are asked for. -/
  | storeReq (xids : List ℕ) (own : List (Result ℕ))
  /-- Loads are asked for. -/
  | loadReq (xids : List ℕ) (own : List (Result (List Payload)))
  /-- The responses of the script are passed on. -/
  | flushCaches
  /-- The connection to a node is lost. -/
  | disconnect (pNode : ℕ)
  /-- The operation is started. -/
  | start (rand : ℕ)

/-- What happens to an operation. -/
def step (p : KadOperation.Settings) (l : CKadOperation) : Op → CKadOperation
  | .process uNow candidates => processLookup (overrides p) p.requestTimeOut uNow candidates l
  | .spread uNow offers => spread p uNow offers l
  | .script ops => runScript p ops l
  | .nodesAnswered uNow pNode queued named => nodesAnswered p uNow pNode queued named l
  | .proxyingResponse pNode error ops => proxyingResponse p pNode error ops l
  | .handleError pNode => handleError pNode l
  | .executeRes pNode results => handleExecuteRes p pNode results l
  | .storeRes pNode results => handleStoreRes pNode results l
  | .loadRes pNode results => handleLoadRes p pNode results l
  | .executeReq requests own => handleExecuteReq p requests own l
  | .storeReq xids own => handleStoreReq xids own l
  | .loadReq xids own => handleLoadReq p xids own l
  | .flushCaches => flushCaches l
  | .disconnect pNode => disconnect pNode l
  | .start rand => initOperation rand l

/-- An operation after a run. -/
def run (p : KadOperation.Settings) (l : CKadOperation) (ops : List Op) : CKadOperation := ops.foldl (step p) l

/-- A new operation. -/
def new (id : ℕ) (hopLimit jumpCount spreadCount spreadShare : ℤ) (inRange manualMode script : Bool) : CKadOperation :=
  CKadLookup.new id hopLimit jumpCount
    { brancheCount := 0, spreadCount := spreadCount, spreadShare := spreadShare
      inRange := inRange, outOfNodes := false, manualMode := manualMode
      activeCount := 0, failedCount := 0, totalDoneJobs := 0, totalReplys := 0
      callMap := empty, storeMap := empty, loadMap := empty, loadFilter := empty
      pOperator := if script then some ⟨true, empty, []⟩ else none
      trace := ⟨[], [], [], [], []⟩ }

end NeoLoader.OperationResults
