import NeoLoader.OperationResults

/-!
# What responses leave alone

Responses of nodes carry the numbers of transactions. A call that is not in the table of the operation is
left alone, but stores and loads, and all transactions in the table of a node, are put in if they are not
there. What a step may do to the tables is said once, and followed through all that the handlers do.
-/

namespace NeoLoader.ResponseFrames

open KeyMap KeyMap.OrderedMap KadLookup KadOperation OperationResults

variable {p : KadOperation.Settings} {l l' l'' : CKadOperation} {K : Set ℕ}

section Statement

/-- The transactions of a node, none if it is not a node of the operation. -/
def tableOf (l : CKadOperation) (k : ℕ) (task : Task) : OrderedMap ℕ SOpStatus :=
  (l.nodes.get k).elim empty fun s => s.own.get task

/-- A transaction is in the table of a node. -/
def InTable (l : CKadOperation) (k : ℕ) (task : Task) (xid : ℕ) : Prop :=
  ((tableOf l k task).get xid).isSome = true

/-- A transaction is in the table of the operation. -/
def InJobs (l : CKadOperation) (task : Task) (xid : ℕ) : Prop :=
  ((l.own.jobs task).get xid).isSome = true

/-- The transactions that nodes are given. -/
def requested (o : SOperation) : Task → OrderedMap ℕ SOpStatus
  | .call => o.callJobs
  | .store => o.storeMap
  | .load => o.loadMap

/-- Nodes are given a transaction. -/
def Requested (l : CKadOperation) (task : Task) (xid : ℕ) : Prop :=
  ((requested l.own task).get xid).isSome = true

/-- A response packet, with what the script does at each result of a call. -/
inductive Response
  /-- For `AddCallRes`. -/
  | call (results : List (Result ℕ × OnResponse))
  /-- For `AddStoreRes`. -/
  | store (results : List (Result ℕ))
  /-- For `AddLoadRes`. -/
  | load (results : List (Result (List Payload)))

/-- What the response is about. -/
def Response.task : Response → Task
  | .call _ => Task.call
  | .store _ => Task.store
  | .load _ => Task.load

/-- The transactions that the response names. -/
def Response.ids : Response → List ℕ
  | .call results => results.map fun r => r.1.xid
  | .store results => results.map Result.xid
  | .load results => results.map Result.xid

/-- The script adds a node. -/
def scriptAdds (script : OnResponse) (k : ℕ) : Prop :=
  ∃ uNow c bStateless shares, ScriptOp.addNode uNow c bStateless shares ∈ script.ops ∧ c.pNode = k

/-- The nodes that the script adds meanwhile. -/
def Response.adds : Response → Set ℕ
  | .call results => {k | ∃ r ∈ results, scriptAdds r.2 k}
  | .store _ => ∅
  | .load _ => ∅

/-- `AddCallRes`, `AddStoreRes` and `AddLoadRes`. The progress of the node is looked up once. -/
def addRes (p : KadOperation.Settings) (pNode : Option ℕ) (l : CKadOperation) :
    Response → CKadOperation × List TaskResult
  | .call results =>
    let added := addCallRes p (known pNode l) results l
    (added.1, added.2.map TaskResult.call)
  | .store results =>
    let added := addStoreRes (known pNode l) results l
    (added.1, added.2.map TaskResult.store)
  | .load results =>
    let added := addLoadRes p (known pNode l) results l
    (added.1, added.2.map TaskResult.load)

/-- What is expected of a response: the tables keep their transactions, except that a node which the script
adds is given those of the operation, and what is not known is neither counted nor passed on. -/
structure FrameRight (p : KadOperation.Settings) (pNode : Option ℕ) (l : CKadOperation)
    (response : Response) : Prop where
  /-- The tables of the operation have the transactions that they had. -/
  jobs : ∀ task xid, InJobs (addRes p pNode l response).1 task xid ↔ InJobs l task xid
  /-- The tables of the nodes keep their transactions. -/
  kept : ∀ k task xid, InTable l k task xid → InTable (addRes p pNode l response).1 k task xid
  /-- They get none, unless the script adds the node. -/
  fresh : ∀ k task xid, InTable (addRes p pNode l response).1 k task xid → InTable l k task xid ∨
    k ∈ response.adds ∧ Requested (addRes p pNode l response).1 task xid
  /-- What the node was not given is not counted for it. -/
  uncounted : ∀ k, known pNode l = some k → ∀ xid ∈ response.ids, ¬ InTable l k response.task xid →
    ∀ status, (tableOf (addRes p pNode l response).1 k response.task).get xid = some status → status.results = 0
  /-- What is passed on was known, or waited to be passed on before. -/
  passed : ∀ r ∈ (addRes p pNode l response).2, InJobs l response.task r.xid ∨ r ∈ (getResponses l).map TaskResult.call

/-- The transactions of a response are known: to the node, if it is one of the operation, and to the operation,
if they are stores or loads. -/
def KnownIds (pNode : Option ℕ) (l : CKadOperation) (response : Response) : Prop :=
  ∀ xid ∈ response.ids, (∀ k, known pNode l = some k → InTable l k response.task xid) ∧
    (response.task ≠ Task.call → InJobs l response.task xid)

end Statement

section Steps

/-- What every step does: nothing is taken out of a table, and no result is forgotten. -/
structure Grows (l l' : CKadOperation) : Prop where
  /-- The nodes stay. -/
  nodes : ∀ k, (l.nodes.get k).isSome = true → (l'.nodes.get k).isSome = true
  /-- The results that a node has sent stay counted. -/
  tables : ∀ k task xid status, (tableOf l k task).get xid = some status →
    ∃ status', (tableOf l' k task).get xid = some status' ∧ status.results ≤ status'.results
  /-- The transactions stay. -/
  jobs : ∀ task xid, InJobs l task xid → InJobs l' task xid
  /-- What nodes are given stays. -/
  requests : ∀ task xid, Requested l task xid → Requested l' task xid

/-- What a step may do that adds some nodes. -/
structure Frame (K : Set ℕ) (l l' : CKadOperation) : Prop extends Grows l l' where
  /-- There are no more transactions. -/
  jobs_back : ∀ task xid, InJobs l' task xid → InJobs l task xid
  /-- There are no more transactions of a node, unless it is added. -/
  tables_back : ∀ k task xid, InTable l' k task xid → InTable l k task xid ∨ k ∈ K ∧ Requested l' task xid
  /-- The responses that wait are those from before, or for known calls. -/
  responses : ∀ r ∈ getResponses l', r ∈ getResponses l ∨ InJobs l Task.call r.xid

theorem Grows.trans (h : Grows l l') (h' : Grows l' l'') : Grows l l'' where
  nodes k hk := h'.nodes k (h.nodes k hk)
  tables k task xid status hs := by
    obtain ⟨status', hs', hle⟩ := h.tables k task xid status hs
    obtain ⟨status'', hs'', hle'⟩ := h'.tables k task xid status' hs'
    exact ⟨status'', hs'', hle.trans hle'⟩
  jobs task xid hx := h'.jobs task xid (h.jobs task xid hx)
  requests task xid hx := h'.requests task xid (h.requests task xid hx)

/-- A result that is counted stays so. -/
theorem Grows.counted (h : Grows l l') {k : ℕ} {task : Task} {xid : ℕ}
    (hcounted : ∃ status, (tableOf l k task).get xid = some status ∧ 0 < status.results) :
    ∃ status, (tableOf l' k task).get xid = some status ∧ 0 < status.results := by
  obtain ⟨status, hstatus, hpos⟩ := hcounted
  obtain ⟨status', hstatus', hle⟩ := h.tables _ _ _ _ hstatus
  exact ⟨status', hstatus', hpos.trans_le hle⟩

theorem Grows.inTable (h : Grows l l') {k : ℕ} {task : Task} {xid : ℕ} (hin : InTable l k task xid) :
    InTable l' k task xid := by
  obtain ⟨status, hstatus⟩ := Option.isSome_iff_exists.mp hin
  obtain ⟨status', hstatus', -⟩ := h.tables k task xid status hstatus
  simp [InTable, hstatus']

/-- Steps one after the other. -/
theorem Frame.trans (h : Frame K l l') (h' : Frame K l' l'') : Frame K l l'' where
  toGrows := h.toGrows.trans h'.toGrows
  jobs_back task xid hx := h.jobs_back task xid (h'.jobs_back task xid hx)
  tables_back k task xid hx := by
    rcases h'.tables_back k task xid hx with hold | hnew
    · rcases h.tables_back k task xid hold with hold | ⟨hk, hreq⟩
      exacts [Or.inl hold, Or.inr ⟨hk, h'.requests task xid hreq⟩]
    · exact Or.inr hnew
  responses r hr := by
    rcases h'.responses r hr with hold | hnew
    · exact h.responses r hold
    · exact Or.inr (h.jobs_back _ _ hnew)

section

variable (hnodes : ∀ k, (l.nodes.get k).isSome = true → (l'.nodes.get k).isSome = true)
  (htables : ∀ k task, tableOf l' k task = tableOf l k task)

include hnodes htables

/-- A step that leaves the tables of the nodes. -/
theorem Frame.of_tables (hjobs : ∀ task xid, InJobs l' task xid ↔ InJobs l task xid)
    (hrequests : ∀ task xid, Requested l task xid → Requested l' task xid)
    (hresponses : ∀ r ∈ getResponses l', r ∈ getResponses l ∨ InJobs l Task.call r.xid) :
    Frame K l l' where
  nodes := hnodes
  tables k task xid status hs := ⟨status, by rw [htables]; exact hs, le_rfl⟩
  jobs task xid hx := (hjobs task xid).mpr hx
  requests := hrequests
  jobs_back task xid hx := (hjobs task xid).mp hx
  tables_back k task xid hx := Or.inl (by unfold InTable at *; rwa [htables] at hx)
  responses := hresponses

theorem Frame.of_nodes (hown : l'.own = l.own) : Frame K l l' := by
  refine Frame.of_tables hnodes htables ?_ ?_ ?_
  · simp [InJobs, hown]
  · simp [Requested, hown]
  · intro r hr
    unfold getResponses at *
    rw [hown] at hr
    exact Or.inl hr

end

theorem Frame.refl (l : CKadOperation) : Frame K l l :=
  Frame.of_nodes (fun _ h => h) (fun _ _ => rfl) rfl

theorem Frame.modifyOwn {f : SOperation → SOperation}
    (hjobs : ∀ task xid, (((f l.own).jobs task).get xid).isSome = ((l.own.jobs task).get xid).isSome)
    (hrequests : ∀ task xid, ((requested l.own task).get xid).isSome = true →
      ((requested (f l.own) task).get xid).isSome = true)
    (hresponses : ∀ r ∈ getResponses (KadOperation.modifyOwn f l),
      r ∈ getResponses l ∨ InJobs l Task.call r.xid) : Frame K l (KadOperation.modifyOwn f l) := by
  refine Frame.of_tables (fun _ h => h) (fun _ _ => rfl) (fun task xid => ?_) hrequests hresponses
  unfold InJobs KadOperation.modifyOwn
  rw [hjobs]

theorem Frame.note (f : Trace → Trace) : Frame K l (KadOperation.modifyOwn (SOperation.note f) l) := by
  refine Frame.modifyOwn (fun task _ => ?_) (fun task _ h => ?_) fun r hr => Or.inl hr
  · cases task <;> rfl
  · cases task <;> exact h

theorem tableOf_modifyNode_self {k : ℕ} {s : SNodeStatus SOpProgress} (hs : l.nodes.get k = some s)
    (f : SNodeStatus SOpProgress → SNodeStatus SOpProgress) (task : Task) :
    tableOf (l.modifyNode k f) k task = (f s).own.get task := by
  simp [tableOf, CKadLookup.modifyNode, hs]

theorem tableOf_modifyNode_of_ne {k k' : ℕ} (hk : k' ≠ k)
    (f : SNodeStatus SOpProgress → SNodeStatus SOpProgress) (task : Task) :
    tableOf (l.modifyNode k f) k' task = tableOf l k' task := by
  simp [tableOf, CKadLookup.modifyNode, get_modify_of_ne _ _ hk]

theorem Frame.modifyNode {k : ℕ} {f : SNodeStatus SOpProgress → SNodeStatus SOpProgress}
    (hf : ∀ s task, (f s).own.get task = s.own.get task) : Frame K l (l.modifyNode k f) := by
  refine Frame.of_nodes (fun k' h => ?_) (fun k' task => ?_) rfl
  · simpa [CKadLookup.modifyNode] using h
  · by_cases hk : k' = k
    · subst hk
      cases hs : l.nodes.get k' with
      | none => simp [tableOf, CKadLookup.modifyNode, hs]
      | some s => rw [tableOf_modifyNode_self hs, hf]; simp [tableOf, hs]
    · exact tableOf_modifyNode_of_ne hk f task

/-- A channel is no transaction. -/
theorem Frame.getChannel (k : ℕ) (prepared : Bool) : Frame K l (KadLookup.getChannel (overrides p) k prepared l) := by
  unfold KadLookup.getChannel
  cases hs : l.nodes.get k with
  | none =>
    refine Frame.of_nodes (fun k' h => ?_) (fun k' task => ?_) rfl
    · by_cases hk : k' = k
      · simp [hk]
      · simpa [get_insert_of_ne _ _ hk] using h
    · by_cases hk : k' = k
      · subst hk
        have hnew : ∀ s : SNodeStatus SOpProgress, s.own = (overrides p).newNodeStatus → s.own.get task = empty := by
          intro s hown
          rw [hown]
          cases task <;> rfl
        simp only [tableOf, get_insert_self, hs, Option.elim_some, Option.elim_none]
        cases prepared <;> exact hnew _ rfl
      · simp [tableOf, get_insert_of_ne _ _ hk]
  | some s =>
    dsimp only
    split_ifs
    · exact Frame.modifyNode fun _ _ => rfl
    · exact Frame.refl l

end Steps

section Requests

/-- Dealing some transactions keeps those that were dealt, and adds none but these. -/
theorem get_dealt (entries : List (ℕ × SOpStatus)) (m : OrderedMap ℕ SOpStatus) (xid : ℕ) :
    (∀ status, m.get xid = some status → (entries.foldl (fun m e => if (m.get e.1).isSome then m
        else m.insert e.1 SOpStatus.new) m).get xid = some status) ∧
      (((entries.foldl (fun m e => if (m.get e.1).isSome then m
        else m.insert e.1 SOpStatus.new) m).get xid).isSome = true →
        (m.get xid).isSome = true ∨ ∃ e ∈ entries, e.1 = xid) := by
  induction entries generalizing m with
  | nil => simp
  | cons e entries ih =>
    rw [List.foldl_cons]
    by_cases hget : (m.get e.1).isSome = true
    · rw [if_pos hget]
      refine ⟨(ih m).1, fun h => ?_⟩
      rcases (ih m).2 h with hm | ⟨e', he', hkey⟩
      exacts [Or.inl hm, Or.inr ⟨e', List.mem_cons_of_mem _ he', hkey⟩]
    · rw [if_neg hget]
      constructor
      · intro status hstatus
        have hne : xid ≠ e.1 := by
          rintro rfl
          simp [hstatus] at hget
        exact (ih _).1 status (by rwa [get_insert_of_ne _ _ hne])
      · intro h
        rcases (ih _).2 h with hm | ⟨e', he', hkey⟩
        · by_cases hne : xid = e.1
          · exact Or.inr ⟨e, List.mem_cons_self, hne.symm⟩
          · rw [get_insert_of_ne _ _ hne] at hm
            exact Or.inl hm
        · exact Or.inr ⟨e', List.mem_cons_of_mem _ he', hkey⟩

theorem get_deal (jobs statuses : OrderedMap ℕ SOpStatus) (xid : ℕ) :
    (∀ status, statuses.get xid = some status → (deal jobs statuses).get xid = some status) ∧
      (((deal jobs statuses).get xid).isSome = true →
        (statuses.get xid).isSome = true ∨ (jobs.get xid).isSome = true) := by
  refine ⟨(get_dealt jobs.entries statuses xid).1, fun h => ?_⟩
  rcases (get_dealt jobs.entries statuses xid).2 h with hs | hkey
  · exact Or.inl hs
  · obtain ⟨v, hv⟩ := hasKey_iff_get.mp hkey
    exact Or.inr (by simp [hv])

theorem get_sendRequests (o : SOperation) (progress : SOpProgress) (task : Task) :
    (sendRequests o progress).get task = deal (requested o task) (progress.get task) := by
  cases task <;> rfl

/-- A node gets the transactions that are requested. -/
theorem Frame.deal {k : ℕ} (hk : k ∈ K) {f : SNodeStatus SOpProgress → SNodeStatus SOpProgress}
    (hf : ∀ s task, (f s).own.get task = KadOperation.deal (requested l.own task) (s.own.get task)) :
    Frame K l (l.modifyNode k f) where
  nodes k' h := by simpa [CKadLookup.modifyNode] using h
  tables k' task xid status hs := by
    by_cases hk' : k' = k
    · subst hk'
      cases hget : l.nodes.get k' with
      | none => simp [tableOf, hget] at hs
      | some s =>
        rw [tableOf_modifyNode_self hget, hf]
        have hs' : (s.own.get task).get xid = some status := by simpa [tableOf, hget] using hs
        exact ⟨status, (get_deal _ _ _).1 status hs', le_rfl⟩
    · rw [tableOf_modifyNode_of_ne hk']
      exact ⟨status, hs, le_rfl⟩
  jobs _ _ h := h
  requests _ _ h := h
  jobs_back _ _ h := h
  tables_back k' task xid h := by
    unfold InTable at *
    by_cases hk' : k' = k
    · subst hk'
      cases hget : l.nodes.get k' with
      | none => simp [tableOf, CKadLookup.modifyNode, hget] at h
      | some s =>
        rw [tableOf_modifyNode_self hget, hf] at h
        rcases (get_deal _ _ _).2 h with hold | hnew
        · exact Or.inl (by simpa [tableOf, hget] using hold)
        · exact Or.inr ⟨hk, hnew⟩
    · rw [tableOf_modifyNode_of_ne hk'] at h
      exact Or.inl h
  responses _ h := Or.inl h

theorem Frame.requestStateless {k : ℕ} (hk : k ∈ K) : Frame K l (KadOperation.requestStateless k l) := by
  have hdeal : Frame K l (l.modifyNode k (SNodeStatus.setOwn fun progress =>
      sendRequests l.own { progress with shares := 1, opState := EOpState.eOpStateless })) := by
    refine Frame.deal hk fun s task => ?_
    rw [SNodeStatus.setOwn, get_sendRequests]
    cases task <;> rfl
  exact hdeal.trans (Frame.note _)

/-- A node that is asked to be a proxy gets no transactions yet. -/
theorem Frame.requestShares (uTimeOut k : ℕ) (shares : ℤ) (queued : Bool) :
    Frame K l (KadOperation.requestShares uTimeOut k shares queued l) := by
  unfold KadOperation.requestShares
  split_ifs
  · have hhand : Frame K l (l.modifyNode k (SNodeStatus.setOwn fun progress =>
        { progress with shares := shares, opState := EOpState.eOpPending })) :=
      Frame.modifyNode fun s task => by cases task <;> rfl
    have hnoted := hhand.trans (Frame.note fun trace =>
      { trace with handed := trace.handed ++ [shares] })
    have hawait := hnoted.trans (Frame.modifyNode (k := k) (f := SNodeStatus.await uTimeOut) fun s task => rfl)
    exact hawait.trans (Frame.of_nodes (fun _ h => h) (fun _ _ => rfl) rfl)
  · exact Frame.refl l

theorem Frame.requestProxying (uTimeOut : ℕ) (c : Offer) (freeShares holders : ℤ) :
    Frame K l (KadOperation.requestProxying uTimeOut c freeShares holders l) := by
  unfold KadOperation.requestProxying
  cases l.nodes.get c.pNode with
  | none => exact Frame.refl l
  | some s =>
    dsimp only
    split_ifs
    · exact Frame.refl l
    · exact Frame.requestShares _ _ _ _

/-- The script adds a node. -/
theorem Frame.addNode {uNow : ℕ} {c : Offer} {bStateless : Bool} {shares : ℤ} (hk : c.pNode ∈ K) :
    Frame K l (KadOperation.addNode p uNow c bStateless shares l) := by
  have hchannel : Frame K l (KadLookup.getChannel (overrides p) c.pNode c.prepared l) :=
    Frame.getChannel c.pNode c.prepared
  unfold KadOperation.addNode
  dsimp only
  split_ifs
  · exact hchannel.trans (Frame.requestStateless hk)
  · exact hchannel
  · exact hchannel.trans (Frame.requestShares _ _ _ _)
  · exact hchannel
  · exact hchannel.trans (Frame.requestProxying _ _ _ _)
  · exact hchannel

end Requests

section Scripts

/-- Another script is no transaction, if it keeps its requests. -/
theorem Frame.setOperator {f : CKadOperator → CKadOperator}
    (hrequests : ∀ operator xid, (operator.requests.get xid).isSome = true →
      ((f operator).requests.get xid).isSome = true)
    (hresponses : ∀ operator, l.own.pOperator = some operator → ∀ r ∈ (f operator).responses,
      r ∈ operator.responses ∨ InJobs l Task.call r.xid) :
    Frame K l (OperationResults.setOperator f l) := by
  refine Frame.modifyOwn (fun task _ => ?_) (fun task xid h => ?_) fun r hr => ?_
  · cases task <;> rfl
  · cases task with
    | call =>
      cases hop : l.own.pOperator with
      | none =>
        simp only [requested, SOperation.callJobs, hop, Option.map_none] at h ⊢
        exact h
      | some operator =>
        simp only [requested, SOperation.callJobs, hop, Option.map_some] at h ⊢
        exact hrequests operator xid h
    | store => exact h
    | load => exact h
  · unfold getResponses KadOperation.modifyOwn at *
    cases hop : l.own.pOperator with
    | none => simp [hop] at hr
    | some operator =>
      simp only [hop, Option.map_some] at hr
      exact hresponses operator hop r hr

/-- A call that counts a result stays. -/
theorem Frame.modifyCall (xid : ℕ) (f : SOpStatus → SOpStatus) :
    Frame K l (KadOperation.modifyOwn (fun o => { o with callMap := o.callMap.modify xid f }) l) := by
  refine Frame.modifyOwn (fun task xid' => ?_) (fun task xid' h => ?_) fun r hr => Or.inl hr
  · cases task with
    | call => exact isSome_get_modify _ _ _ _
    | store => rfl
    | load => rfl
  · cases task with
    | call =>
      unfold requested SOperation.callJobs at *
      cases hop : l.own.pOperator with
      | none => simpa [hop] using h
      | some operator => simpa [hop] using h
    | store => exact h
    | load => exact h

theorem Frame.queueResponse {xid : ℕ} (ret : ℕ) (h : InJobs l Task.call xid) :
    Frame K l (OperationResults.queueResponse xid ret l) := by
  refine Frame.setOperator (fun _ _ h => h) fun operator _ r hr => ?_
  rcases List.mem_append.mp hr with hr | hr
  · exact Or.inl hr
  · rw [List.mem_singleton.mp hr]
    exact Or.inr h

/-- The script responds. -/
theorem Frame.addResponse (xid ret : ℕ) (bMore : Bool) : Frame K l (OperationResults.addResponse xid ret bMore l) := by
  unfold OperationResults.addResponse
  cases hcall : l.own.callMap.get xid with
  | none => exact Frame.refl l
  | some status =>
    have hjob : InJobs l Task.call xid := by simp [InJobs, SOperation.jobs, hcall]
    cases l.own.pOperator with
    | none => exact Frame.refl l
    | some operator =>
      dsimp only
      split_ifs with hreq
      · exact Frame.queueResponse ret hjob
      · have hcount : Frame K l (countResponse xid bMore l) := by
          unfold countResponse
          dsimp only
          split_ifs
          · exact Frame.modifyCall _ _
          · exact (Frame.modifyCall _ _).trans (Frame.note _)
        exact hcount.trans (Frame.queueResponse ret (hcount.jobs _ _ hjob))

theorem Frame.addRequest (xid : ℕ) : Frame K l (OperationResults.addRequest xid l) := by
  refine Frame.setOperator (fun operator xid' h => ?_) fun _ _ _ hr => Or.inl hr
  dsimp only
  split_ifs
  · exact h
  · by_cases hx : xid' = xid
    · simp [hx]
    · rwa [get_insert_of_ne _ _ hx]

/-- The script does something. -/
theorem Frame.scriptStep (op : ScriptOp)
    (hadds : ∀ uNow c bStateless shares, op = .addNode uNow c bStateless shares → c.pNode ∈ K) :
    Frame K l (OperationResults.scriptStep p l op) := by
  cases op with
  | addResponse xid ret bMore => exact Frame.addResponse xid ret bMore
  | addRequest xid => exact Frame.addRequest xid
  | addNode uNow c bStateless shares => exact Frame.addNode (hadds _ _ _ _ rfl)
  | findCloser =>
    unfold OperationResults.scriptStep findCloser
    dsimp only
    split_ifs
    · exact Frame.of_nodes (fun _ h => h) (fun _ _ => rfl) rfl
    · exact Frame.refl l

theorem Frame.callScript (r : Result ℕ) {script : OnResponse} (hadds : ∀ k, scriptAdds script k → k ∈ K) :
    Frame K l (OperationResults.callScript p r script l) := by
  have hops : ∀ (ops : List ScriptOp) (l : CKadOperation), (∀ op ∈ ops, op ∈ script.ops) →
      Frame K l (ops.foldl (OperationResults.scriptStep p) l) := by
    intro ops
    induction ops with
    | nil => intro l _; exact Frame.refl l
    | cons op ops ih =>
      intro l hmem
      have hstep : Frame K l (OperationResults.scriptStep p l op) := by
        refine Frame.scriptStep op fun uNow c bStateless shares hop => ?_
        exact hadds _ ⟨uNow, c, bStateless, shares, hop ▸ hmem op List.mem_cons_self, rfl⟩
      exact hstep.trans (ih _ fun op' hop' => hmem op' (List.mem_cons_of_mem _ hop'))
  unfold OperationResults.callScript runScript
  split_ifs
  · cases l.own.pOperator with
    | none => exact Frame.refl l
    | some operator =>
      dsimp only
      split_ifs
      · exact hops script.ops l fun _ h => h
      · exact Frame.refl l
  · exact Frame.refl l

end Scripts

section Counting

theorem get_countIn (m : OrderedMap ℕ SOpStatus) (xid : ℕ) (last : Bool) :
    (countIn m xid last).get xid = some (((m.get xid).getD SOpStatus.new).count last) :=
  get_insert_self _ _ _

theorem countIn_grows {m : OrderedMap ℕ SOpStatus} {xid' : ℕ} {status : SOpStatus}
    (h : m.get xid' = some status) (xid : ℕ) (last : Bool) :
    ∃ status', (countIn m xid last).get xid' = some status' ∧ status.results ≤ status'.results := by
  by_cases hx : xid' = xid
  · subst hx
    rw [get_countIn, h]
    exact ⟨_, rfl, Nat.le_succ _⟩
  · exact ⟨status, by rw [countIn, get_insert_of_ne _ _ hx, h], le_rfl⟩

theorem countIn_keys {m : OrderedMap ℕ SOpStatus} {xid : ℕ} (h : (m.get xid).isSome = true) (xid' : ℕ)
    (last : Bool) : ((countIn m xid last).get xid').isSome = (m.get xid').isSome := by
  by_cases hx : xid' = xid
  · subst hx
    rw [get_countIn, h]
    rfl
  · rw [countIn, get_insert_of_ne _ _ hx]

theorem get_countResult (r : TaskResult) (progress : SOpProgress) (task : Task) : (countResult r progress).get task =
      if task = r.task then countIn (progress.get r.task) r.xid (!r.more) else progress.get task := by
  unfold countResult
  cases r.task <;> cases task <;> rfl

/-- A node counts a result. -/
def countAt (k : ℕ) (r : TaskResult) (l : CKadOperation) : CKadOperation :=
  l.modifyNode k (SNodeStatus.setOwn (countResult r))

variable {k : ℕ}

theorem tableOf_countAt (hk : (l.nodes.get k).isSome = true) (r : TaskResult) :
    tableOf (countAt k r l) k r.task = countIn (tableOf l k r.task) r.xid (!r.more) := by
  obtain ⟨s, hs⟩ := Option.isSome_iff_exists.mp hk
  rw [countAt, tableOf_modifyNode_self hs, SNodeStatus.setOwn, get_countResult, if_pos rfl]
  simp [tableOf, hs]

/-- The other tables after a node counts a result. -/
theorem tableOf_countAt_of_ne {k k' : ℕ} {r : TaskResult} {task : Task} (h : ¬ (k' = k ∧ task = r.task)) :
    tableOf (countAt k r l) k' task = tableOf l k' task := by
  by_cases hk : k' = k
  · subst hk
    cases hs : l.nodes.get k' with
    | none => simp [tableOf, countAt, CKadLookup.modifyNode, hs]
    | some s =>
      have htask : task ≠ r.task := fun heq => h ⟨rfl, heq⟩
      rw [countAt, tableOf_modifyNode_self hs, SNodeStatus.setOwn, get_countResult, if_neg htask]
      simp [tableOf, hs]
  · exact tableOf_modifyNode_of_ne hk _ _

/-- Counting a result at a node forgets nothing. -/
theorem Grows.countAt (hk : (l.nodes.get k).isSome = true) (r : TaskResult) :
    Grows l (ResponseFrames.countAt k r l) where
  nodes k' h := by simpa [ResponseFrames.countAt, CKadLookup.modifyNode] using h
  tables k' task xid status hs := by
    by_cases hsame : k' = k ∧ task = r.task
    · obtain ⟨rfl, rfl⟩ := hsame
      rw [tableOf_countAt hk]
      exact countIn_grows hs _ _
    · rw [tableOf_countAt_of_ne hsame]
      exact ⟨status, hs, le_rfl⟩
  jobs _ _ h := h
  requests _ _ h := h

/-- Counting a result of a transaction that the node knows. -/
theorem Frame.countAt {r : TaskResult} (hin : InTable l k r.task r.xid) : Frame K l (ResponseFrames.countAt k r l) := by
  have hk : (l.nodes.get k).isSome = true := by
    cases hs : l.nodes.get k with
    | none => simp [InTable, tableOf, hs] at hin
    | some s => rfl
  refine ⟨Grows.countAt hk r, fun _ _ h => h, fun k' task xid h => Or.inl ?_, fun _ h => Or.inl h⟩
  unfold InTable at *
  by_cases hsame : k' = k ∧ task = r.task
  · obtain ⟨rfl, rfl⟩ := hsame
    rwa [tableOf_countAt hk, countIn_keys hin] at h
  · rwa [tableOf_countAt_of_ne hsame] at h

theorem receive_eq (pNode : Option ℕ) (r : TaskResult) (l : CKadOperation) :
    receive pNode r l = (known pNode l).elim (noteReceived pNode r l) fun k =>
      ResponseFrames.countAt k r (noteReceived pNode r l) := by
  unfold receive
  cases known pNode l <;> rfl

theorem known_eq_some {pNode : Option ℕ} : known pNode l = some k ↔ pNode = some k ∧ (l.nodes.get k).isSome = true := by
  unfold known
  rw [Option.filter_eq_some_iff]

theorem Grows.receive (pNode : Option ℕ) (r : TaskResult) : Grows l (OperationResults.receive pNode r l) := by
  have hnote : Grows l (noteReceived pNode r l) := (Frame.note (K := ∅) _).toGrows
  rw [receive_eq]
  cases hknown : known pNode l with
  | none => exact hnote
  | some k => exact hnote.trans (Grows.countAt (hnote.nodes k (known_eq_some.mp hknown).2) r)

theorem Frame.receive {pNode : Option ℕ} {r : TaskResult} (hin : ∀ k, pNode = some k → InTable l k r.task r.xid) :
    Frame K l (OperationResults.receive pNode r l) := by
  have hnote : Frame K l (noteReceived pNode r l) := Frame.note _
  rw [receive_eq]
  cases hknown : known pNode l with
  | none => exact hnote
  | some k => exact hnote.trans (Frame.countAt (hin k (known_eq_some.mp hknown).1))

theorem receive_counts (hk : (l.nodes.get k).isSome = true) (r : TaskResult) :
    ∃ status, (tableOf (receive (some k) r l) k r.task).get r.xid = some status ∧ 0 < status.results := by
  have hnote : ((noteReceived (some k) r l).nodes.get k).isSome = true := hk
  rw [receive_eq, known_eq_some.mpr ⟨rfl, hk⟩, Option.elim_some, tableOf_countAt hnote, get_countIn]
  exact ⟨_, rfl, Nat.succ_pos _⟩

end Counting

section Settling

theorem jobs_setJobs (o : SOperation) (m : OrderedMap ℕ SOpStatus) (task task' : Task) :
    (o.setJobs m task).jobs task' = if task' = task then m else o.jobs task' := by
  cases task <;> cases task' <;> rfl

theorem requested_setJobs (o : SOperation) (m : OrderedMap ℕ SOpStatus) (task task' : Task) :
    requested (o.setJobs m task) task' =
      if task' = task ∧ (task = Task.call → o.pOperator = none) then m else requested o task' := by
  cases hop : o.pOperator <;> cases task <;> cases task' <;>
    simp [requested, SOperation.setJobs, SOperation.callJobs, hop]

theorem requested_eq_jobs {o : SOperation} {task : Task} (h : task = Task.call → o.pOperator = none) :
    requested o task = o.jobs task := by
  cases task with
  | call => simp [requested, SOperation.callJobs, SOperation.jobs, h rfl]
  | store => rfl
  | load => rfl

/-- A transaction of the operation that counts a result, put in if it is not there. -/
theorem Grows.settle (task : Task) (xid : ℕ) : Grows l (OperationResults.settle task xid l) := by
  have hnote : Grows l (noteSettled task xid l) := by
    unfold noteSettled
    split_ifs
    · exact (Frame.note (K := ∅) _).toGrows
    · exact (Frame.refl (K := ∅) l).toGrows
  have hjobs : ∀ m : OrderedMap ℕ SOpStatus, ∀ last x, (m.get x).isSome = true →
      ((countIn m xid last).get x).isSome = true := by
    intro m last x hx
    obtain ⟨status, hstatus⟩ := Option.isSome_iff_exists.mp hx
    obtain ⟨status', hstatus', -⟩ := countIn_grows hstatus xid last
    simp [hstatus']
  refine hnote.trans ⟨fun _ h => h, fun _ _ _ status hs => ⟨status, hs, le_rfl⟩, ?_, ?_⟩
  · intro task' x h
    unfold InJobs OperationResults.settle KadOperation.modifyOwn at *
    dsimp only
    rw [jobs_setJobs]
    split_ifs with htask
    · rw [htask] at h
      exact hjobs _ _ _ h
    · exact h
  · intro task' x h
    unfold Requested OperationResults.settle KadOperation.modifyOwn at *
    dsimp only
    rw [requested_setJobs]
    split_ifs with htask
    · rw [htask.1, requested_eq_jobs htask.2] at h
      exact hjobs _ _ _ h
    · exact h

/-- A transaction of the operation that is there counts a result. -/
theorem Frame.settle {task : Task} {xid : ℕ} (hin : InJobs l task xid) :
    Frame K l (OperationResults.settle task xid l) := by
  have hnote : Frame K l (noteSettled task xid l) := by
    unfold noteSettled
    split_ifs
    · exact Frame.note _
    · exact Frame.refl l
  have hjob : ((((noteSettled task xid l).own.jobs task)).get xid).isSome = true :=
    hnote.jobs task xid hin
  refine hnote.trans (Frame.modifyOwn (fun task' x => ?_) (fun task' x h => ?_) fun r hr => ?_)
  · rw [jobs_setJobs]
    split_ifs with htask
    · rw [htask, countIn_keys hjob]
    · rfl
  · rw [requested_setJobs]
    split_ifs with htask
    · rw [htask.1, requested_eq_jobs htask.2] at h
      rwa [countIn_keys hjob]
    · exact h
  · refine Or.inl ?_
    have hop : ∀ (o : SOperation) m, (o.setJobs m task).pOperator = o.pOperator := by
      intro o m
      cases task <;> rfl
    unfold getResponses KadOperation.modifyOwn at *
    rwa [hop] at hr

theorem inJobs_settle (task : Task) (xid : ℕ) (l : CKadOperation) :
    InJobs (OperationResults.settle task xid l) task xid := by
  unfold InJobs OperationResults.settle KadOperation.modifyOwn
  dsimp only
  rw [jobs_setJobs, if_pos rfl, get_countIn]
  rfl

theorem Frame.settleCall (xid : ℕ) : Frame K l (OperationResults.settleCall xid l) := by
  unfold OperationResults.settleCall
  cases hcall : l.own.callMap.get xid with
  | none => exact Frame.refl l
  | some status => exact Frame.settle (by simp [InJobs, SOperation.jobs, hcall])

theorem Frame.settleRequest (xid : ℕ) : Frame K l (OperationResults.settleRequest xid l) :=
  Frame.setOperator (fun _ _ h => by simpa using h) fun _ _ _ hr => Or.inl hr

end Settling

section Handlers

theorem Frame.countCall {pNode : Option ℕ} {r : Result ℕ} (hin : ∀ k, pNode = some k → InTable l k Task.call r.xid) :
    Frame K l (OperationResults.countCall pNode r l) :=
  ((Frame.receive hin).trans (Frame.settleCall _)).trans (Frame.settleRequest _)

theorem Grows.countCall (pNode : Option ℕ) (r : Result ℕ) : Grows l (OperationResults.countCall pNode r l) :=
  ((Grows.receive pNode (TaskResult.call r)).trans (Frame.settleCall (K := ∅) _).toGrows).trans
    (Frame.settleRequest (K := ∅) _).toGrows

theorem Frame.addCallResults {pNode : Option ℕ} {results : List (Result ℕ × OnResponse)}
    (hin : ∀ r ∈ results, ∀ k, pNode = some k → InTable l k Task.call r.1.xid)
    (hadds : ∀ r ∈ results, ∀ k, scriptAdds r.2 k → k ∈ K) :
    Frame K l (OperationResults.addCallResults p pNode results l).1 ∧
      ∀ r ∈ (OperationResults.addCallResults p pNode results l).2, InJobs l Task.call r.xid := by
  induction results generalizing l with
  | nil => exact ⟨Frame.refl l, by simp [OperationResults.addCallResults]⟩
  | cons r results ih =>
    obtain ⟨r, script⟩ := r
    have hcount : Frame K l (OperationResults.countCall pNode r l) :=
      Frame.countCall (hin _ List.mem_cons_self)
    have hcall : Frame K l (OperationResults.callScript p r script (OperationResults.countCall pNode r l)) :=
      hcount.trans (Frame.callScript r (hadds _ List.mem_cons_self))
    obtain ⟨hrest, hpassed⟩ := ih (fun r' hr' k hk => hcall.inTable (hin r' (List.mem_cons_of_mem _ hr') k hk))
      (fun r' hr' => hadds r' (List.mem_cons_of_mem _ hr'))
    refine ⟨hcall.trans hrest, fun r' hr' => ?_⟩
    rw [OperationResults.addCallResults] at hr'
    rcases List.mem_append.mp hr' with hr' | hr'
    · unfold passCall at hr'
      split_ifs at hr' with htaken hjob
      · simp at hr'
      · rw [List.mem_singleton.mp hr']
        exact hcall.jobs_back _ _ hjob
      · simp at hr'
    · exact hcall.jobs_back _ _ (hpassed r' hr')

theorem addCallResults_counts (pNode : Option ℕ) (results : List (Result ℕ × OnResponse)) (l : CKadOperation) :
    Grows l (addCallResults p pNode results l).1 ∧
      ∀ k, pNode = some k → (l.nodes.get k).isSome = true → ∀ r ∈ results, ∃ status,
        (tableOf (addCallResults p pNode results l).1 k Task.call).get r.1.xid = some status ∧ 0 < status.results := by
  induction results generalizing l with
  | nil => exact ⟨(Frame.refl (K := ∅) l).toGrows, by simp⟩
  | cons r results ih =>
    obtain ⟨r, script⟩ := r
    have hscript : Grows (countCall pNode r l) (callScript p r script (countCall pNode r l)) :=
      (Frame.callScript (K := Set.univ) r fun _ _ => Set.mem_univ _).toGrows
    have hstep := (Grows.countCall (l := l) pNode r).trans hscript
    obtain ⟨hrest, hcounts⟩ := ih (callScript p r script (countCall pNode r l))
    refine ⟨hstep.trans hrest, fun k hk hnode r' hr' => ?_⟩
    rcases List.mem_cons.mp hr' with rfl | hr'
    · subst hk
      obtain ⟨status, hstatus, hpos⟩ := receive_counts hnode (TaskResult.call r)
      have hafter := (((Frame.settleCall (K := ∅) r.xid).trans (Frame.settleRequest r.xid)).toGrows.trans
        hscript).trans hrest
      exact hafter.counted ⟨status, hstatus, hpos⟩
    · exact hcounts k hk (hstep.nodes k hnode) r' hr'

end Handlers

section Jobs

/-- A result of a store or a load is counted. -/
def countJob (pNode : Option ℕ) (r : TaskResult) (l : CKadOperation) : CKadOperation :=
  settle r.task r.xid (receive pNode r l)

variable {pNode : Option ℕ}

theorem Frame.countJob {r : TaskResult}
    (hin : ∀ k, pNode = some k → InTable l k r.task r.xid) (hjob : InJobs l r.task r.xid) :
    Frame K l (ResponseFrames.countJob pNode r l) := by
  have hreceive : Frame K l (OperationResults.receive pNode r l) := Frame.receive hin
  exact hreceive.trans (Frame.settle (hreceive.jobs _ _ hjob))

theorem countJob_counts (pNode : Option ℕ) (r : TaskResult) (l : CKadOperation) :
    Grows l (countJob pNode r l) ∧ InJobs (countJob pNode r l) r.task r.xid ∧
      ∀ k, pNode = some k → (l.nodes.get k).isSome = true → ∃ status,
        (tableOf (countJob pNode r l) k r.task).get r.xid = some status ∧ 0 < status.results := by
  have hsettle : Grows (receive pNode r l) (countJob pNode r l) := Grows.settle _ _
  refine ⟨(Grows.receive pNode r).trans hsettle, inJobs_settle _ _ _, fun k hk hnode => ?_⟩
  subst hk
  exact hsettle.counted (receive_counts hnode r)

/-- The results of stores that are known. -/
theorem Frame.addStoreRes {results : List (Result ℕ)}
    (hin : ∀ r ∈ results, ∀ k, pNode = some k → InTable l k Task.store r.xid)
    (hjobs : ∀ r ∈ results, InJobs l Task.store r.xid) :
    Frame K l (OperationResults.addStoreRes pNode results l).1 := by
  induction results generalizing l with
  | nil => exact Frame.refl l
  | cons r results ih =>
    have hcount : Frame K l (ResponseFrames.countJob pNode (TaskResult.store r) l) :=
      Frame.countJob (hin r List.mem_cons_self) (hjobs r List.mem_cons_self)
    exact hcount.trans (ih (fun r' hr' k hk => hcount.inTable (hin r' (List.mem_cons_of_mem _ hr') k hk))
      (fun r' hr' => hcount.jobs _ _ (hjobs r' (List.mem_cons_of_mem _ hr'))))

/-- The results of stores are counted and passed on, known or not. -/
theorem addStoreRes_counts (pNode : Option ℕ) (results : List (Result ℕ)) (l : CKadOperation) :
    Grows l (addStoreRes pNode results l).1 ∧ (∀ r ∈ results, InJobs (addStoreRes pNode results l).1 Task.store r.xid ∧
        ∀ k, pNode = some k → (l.nodes.get k).isSome = true → ∃ status,
          (tableOf (addStoreRes pNode results l).1 k Task.store).get r.xid = some status ∧ 0 < status.results) ∧
      (addStoreRes pNode results l).2.map Result.xid = results.map Result.xid := by
  induction results generalizing l with
  | nil => exact ⟨(Frame.refl (K := ∅) l).toGrows, by simp, rfl⟩
  | cons r results ih =>
    obtain ⟨hcount, hjob, hcounted⟩ := countJob_counts pNode (TaskResult.store r) l
    obtain ⟨hrest, hcounts, hpassed⟩ := ih (countJob pNode (TaskResult.store r) l)
    refine ⟨hcount.trans hrest, fun r' hr' => ?_, congrArg (List.cons r.xid) hpassed⟩
    rcases List.mem_cons.mp hr' with rfl | hr'
    · exact ⟨hrest.jobs _ _ hjob, fun k hk hnode => hrest.counted (hcounted k hk hnode)⟩
    · exact ⟨(hcounts r' hr').1, fun k hk hnode => (hcounts r' hr').2 k hk (hcount.nodes k hnode)⟩

theorem Frame.passLoad (r : Result (List Payload)) :
    Frame K l (OperationResults.passLoad p r l).1 ∧ (OperationResults.passLoad p r l).2.xid = r.xid := by
  unfold OperationResults.passLoad
  split_ifs
  · exact ⟨Frame.refl l, rfl⟩
  · have hfilter : ∀ fingerprints, Frame K l (setFilter r.xid fingerprints l) := by
      refine fun fingerprints => Frame.modifyOwn (fun task _ => ?_) (fun task _ h => ?_) fun _ hr => Or.inl hr
      · cases task <;> rfl
      · cases task <;> exact h
    exact ⟨hfilter _, rfl⟩

/-- The results of loads that are known. -/
theorem Frame.addLoadRes {results : List (Result (List Payload))}
    (hin : ∀ r ∈ results, ∀ k, pNode = some k → InTable l k Task.load r.xid)
    (hjobs : ∀ r ∈ results, InJobs l Task.load r.xid) :
    Frame K l (OperationResults.addLoadRes p pNode results l).1 := by
  induction results generalizing l with
  | nil => exact Frame.refl l
  | cons r results ih =>
    have hcount : Frame K l (ResponseFrames.countJob pNode (TaskResult.load r) l) :=
      Frame.countJob (hin r List.mem_cons_self) (hjobs r List.mem_cons_self)
    have hpass := hcount.trans (Frame.passLoad (p := p) r).1
    exact hpass.trans (ih (fun r' hr' k hk => hpass.inTable (hin r' (List.mem_cons_of_mem _ hr') k hk))
      (fun r' hr' => hpass.jobs _ _ (hjobs r' (List.mem_cons_of_mem _ hr'))))

/-- The results of loads are counted and passed on, known or not. -/
theorem addLoadRes_counts (pNode : Option ℕ) (results : List (Result (List Payload))) (l : CKadOperation) :
    Grows l (addLoadRes p pNode results l).1 ∧ (∀ r ∈ results, InJobs (addLoadRes p pNode results l).1 Task.load r.xid ∧
        ∀ k, pNode = some k → (l.nodes.get k).isSome = true → ∃ status,
          (tableOf (addLoadRes p pNode results l).1 k Task.load).get r.xid = some status ∧ 0 < status.results) ∧
      (addLoadRes p pNode results l).2.map Result.xid = results.map Result.xid := by
  induction results generalizing l with
  | nil => exact ⟨(Frame.refl (K := ∅) l).toGrows, by simp, rfl⟩
  | cons r results ih =>
    obtain ⟨hcount, hjob, hcounted⟩ := countJob_counts pNode (TaskResult.load r) l
    obtain ⟨hpass, hxid⟩ := Frame.passLoad (K := ∅) (p := p) (l := countJob pNode (TaskResult.load r) l) r
    obtain ⟨hrest, hcounts, hpassed⟩ := ih (passLoad p r (countJob pNode (TaskResult.load r) l)).1
    have hafter := hpass.toGrows.trans hrest
    refine ⟨hcount.trans hafter, fun r' hr' => ?_, ?_⟩
    · rcases List.mem_cons.mp hr' with rfl | hr'
      · exact ⟨hafter.jobs _ _ hjob, fun k hk hnode => hafter.counted (hcounted k hk hnode)⟩
      · have hnodes := (hcount.trans hpass.toGrows).nodes
        exact ⟨(hcounts r' hr').1, fun k hk hnode => (hcounts r' hr').2 k hk (hnodes k hnode)⟩
    · rw [List.map_cons, ← hpassed, ← hxid]
      rfl

end Jobs

section Responses

theorem addRes_counts (pNode : Option ℕ) (l : CKadOperation) (response : Response) : ∀ xid ∈ response.ids,
      (∀ k, known pNode l = some k → ∃ status,
        (tableOf (addRes p pNode l response).1 k response.task).get xid = some status ∧ 0 < status.results) ∧
      (response.task ≠ Task.call → InJobs (addRes p pNode l response).1 response.task xid) := by
  intro xid hxid
  cases response with
  | call results =>
    obtain ⟨r, hr, rfl⟩ := List.mem_map.mp hxid
    refine ⟨fun k hk => ?_, fun h => absurd rfl h⟩
    have hnode := (known_eq_some.mp hk).2
    exact (addCallResults_counts (known pNode l) results l).2 k hk hnode r hr
  | store results =>
    obtain ⟨r, hr, rfl⟩ := List.mem_map.mp hxid
    obtain ⟨-, hcounts, -⟩ := addStoreRes_counts (known pNode l) results l
    exact ⟨fun k hk => (hcounts r hr).2 k hk (known_eq_some.mp hk).2, fun _ => (hcounts r hr).1⟩
  | load results =>
    obtain ⟨r, hr, rfl⟩ := List.mem_map.mp hxid
    obtain ⟨-, hcounts, -⟩ := addLoadRes_counts (p := p) (known pNode l) results l
    exact ⟨fun k hk => (hcounts r hr).2 k hk (known_eq_some.mp hk).2, fun _ => (hcounts r hr).1⟩

/-- A response whose transactions are known. -/
theorem addRes_frame {pNode : Option ℕ} {response : Response} (h : KnownIds pNode l response) :
    Frame response.adds l (addRes p pNode l response).1 ∧
      ∀ r ∈ (addRes p pNode l response).2, InJobs l response.task r.xid ∨ r ∈ (getResponses l).map TaskResult.call := by
  cases response with
  | call results =>
    have hin : ∀ r ∈ results, ∀ k, known pNode l = some k → InTable l k Task.call r.1.xid :=
      fun r hr k hk => (h _ (List.mem_map.mpr ⟨r, hr, rfl⟩)).1 k hk
    obtain ⟨hframe, hpassed⟩ := Frame.addCallResults (K := (Response.call results).adds) (p := p) hin
      (fun r hr k hk => ⟨r, hr, hk⟩)
    have hclear : Frame (Response.call results).adds (addCallResults p (known pNode l) results l).1
        (addRes p pNode l (.call results)).1 :=
      Frame.setOperator (fun _ _ h => h) fun _ _ _ hr => by simp at hr
    refine ⟨hframe.trans hclear, fun passed hpass => ?_⟩
    obtain ⟨r, hr, rfl⟩ := List.mem_map.mp hpass
    rcases List.mem_append.mp hr with hr | hr
    · exact Or.inl (hpassed r hr)
    · rcases hframe.responses r hr with hold | hjob
      · exact Or.inr (List.mem_map.mpr ⟨r, hold, rfl⟩)
      · exact Or.inl hjob
  | store results =>
    have hin : ∀ r ∈ results, ∀ k, known pNode l = some k → InTable l k Task.store r.xid :=
      fun r hr k hk => (h _ (List.mem_map.mpr ⟨r, hr, rfl⟩)).1 k hk
    have hjobs : ∀ r ∈ results, InJobs l Task.store r.xid := fun r hr =>
      (h _ (List.mem_map.mpr ⟨r, hr, rfl⟩)).2 (by simp [Response.task])
    refine ⟨Frame.addStoreRes hin hjobs, fun passed hpass => ?_⟩
    obtain ⟨r, hr, rfl⟩ := List.mem_map.mp hpass
    have hids := (addStoreRes_counts (known pNode l) results l).2.2
    have hmem : r.xid ∈ results.map Result.xid := hids ▸ List.mem_map.mpr ⟨r, hr, rfl⟩
    exact Or.inl ((h _ hmem).2 (by simp [Response.task]))
  | load results =>
    have hin : ∀ r ∈ results, ∀ k, known pNode l = some k → InTable l k Task.load r.xid :=
      fun r hr k hk => (h _ (List.mem_map.mpr ⟨r, hr, rfl⟩)).1 k hk
    have hjobs : ∀ r ∈ results, InJobs l Task.load r.xid := fun r hr =>
      (h _ (List.mem_map.mpr ⟨r, hr, rfl⟩)).2 (by simp [Response.task])
    refine ⟨Frame.addLoadRes hin hjobs, fun passed hpass => ?_⟩
    obtain ⟨r, hr, rfl⟩ := List.mem_map.mp hpass
    have hids := (addLoadRes_counts (p := p) (known pNode l) results l).2.2
    have hmem : r.xid ∈ results.map Result.xid := hids ▸ List.mem_map.mpr ⟨r, hr, rfl⟩
    exact Or.inl ((h _ hmem).2 (by simp [Response.task]))

/-- A response leaves alone what it should exactly if all its transactions are known. -/
theorem frameRight_iff (p : KadOperation.Settings) (pNode : Option ℕ) (l : CKadOperation)
    (response : Response) : FrameRight p pNode l response ↔ KnownIds pNode l response := by
  constructor
  · intro h xid hxid
    obtain ⟨hcounted, hjob⟩ := addRes_counts (p := p) pNode l response xid hxid
    refine ⟨fun k hk => ?_, fun htask => (h.jobs _ _).mp (hjob htask)⟩
    by_contra hin
    obtain ⟨status, hstatus, hpos⟩ := hcounted k hk
    exact hpos.ne' (h.uncounted k hk xid hxid hin status hstatus)
  · intro h
    obtain ⟨hframe, hpassed⟩ := addRes_frame (p := p) h
    exact {
      jobs := fun task xid => ⟨hframe.jobs_back task xid, hframe.jobs task xid⟩
      kept := fun k task xid => hframe.inTable
      fresh := hframe.tables_back
      uncounted := fun k hk xid hxid hin => absurd ((h xid hxid).1 k hk) hin
      passed := hpassed }

/-- A node that was asked statelessly, without any request. -/
def askedNode : SNodeStatus SOpProgress :=
  ⟨some false, ELookupState.eNoLookup, none, ⟨1, EOpState.eOpStateless, empty, empty, empty⟩⟩

/-- An operation with two nodes and without transactions. -/
def idleOperation : CKadOperation :=
  { new 0 1 0 2 2 false true false with nodes := (empty.insert 1 askedNode).insert 2 askedNode }

/-- A node that answers a store nobody has asked for has the answer passed on, and the store sent to the other
node. -/
theorem response_spreads : ¬ FrameRight ⟨⟨id, 1, 10⟩, 100, id⟩ (some 1) idleOperation (.store [⟨5, false, none, 0⟩]) ∧
      (addRes ⟨⟨id, 1, 10⟩, 100, id⟩ (some 1) idleOperation (.store [⟨5, false, none, 0⟩])).2.length = 1 ∧
      ¬ InTable idleOperation 2 Task.store 5 ∧
      InTable (sendNew (addRes ⟨⟨id, 1, 10⟩, 100, id⟩ (some 1) idleOperation (.store [⟨5, false, none, 0⟩])).1)
        2 Task.store 5 := by
  refine ⟨fun h => ?_, rfl, ?_, ?_⟩
  · have hbefore : ¬ InJobs idleOperation Task.store 5 := by
      unfold InJobs
      decide
    exact hbefore ((h.jobs Task.store 5).mp (inJobs_settle _ _ _))
  · unfold InTable
    decide
  · unfold InTable
    decide

end Responses

end NeoLoader.ResponseFrames
