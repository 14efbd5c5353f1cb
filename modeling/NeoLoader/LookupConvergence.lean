import NeoLoader.KadLookup

/-!
# Convergence of a node lookup

When a lookup ends, the closer nodes it was told about have been asked, if each of them had
been asked before it was named, or if the lookup has gone through the nodes of the routing
table and found them there. It can end earlier, since a node that names closer nodes counts
as a closest one: the request to the node it names goes to no node of the lookup.
-/

namespace NeoLoader.LookupConvergence

open KeyMap KeyMap.OrderedMap KadLookup

section History

variable {σ ρ : Type} (v : Overrides σ ρ) {l l' l'' : CKadLookup σ ρ}

/-- The lookup was told about a node. -/
def Told (l : CKadLookup σ ρ) (pNode : ℕ) : Prop :=
  ∃ nodes byID, HistoryCall.addNodes nodes byID ∈ l.history ∧ pNode ∈ nodes

/-- A node has answered. -/
def Answered (l : CKadLookup σ ρ) (pNode : ℕ) : Prop :=
  ∃ count, HistoryCall.registerNodes pNode count ∈ l.history

/-- A node has itself been asked, or its channel has failed. -/
def Tried (l : CKadLookup σ ρ) (pNode : ℕ) : Prop :=
  HistoryCall.expectNodes pNode none ∈ l.history ∨ pNode ∈ l.failed

/-- The nodes of a lookup have been asked, or their channels have failed. -/
def NodesTried (l : CKadLookup σ ρ) : Prop :=
  ∀ k, (l.nodes.get k).isSome = true → Tried l k

/-- The lookup asks nodes, and is told nothing. -/
structure Asks (l l' : CKadLookup σ ρ) : Prop where
  /-- The target stays. -/
  target : l'.id = l.id
  /-- The history is told of nodes that are asked. -/
  history : ∃ calls, l'.history = l.history ++ calls ∧ ∀ call ∈ calls, ∃ k byID, call = HistoryCall.expectNodes k byID
  /-- Channels that have failed stay so. -/
  failed : ∀ k ∈ l.failed, k ∈ l'.failed
  /-- No node is taken out. -/
  keys : ∀ k, (l.nodes.get k).isSome = true → (l'.nodes.get k).isSome = true
  /-- The nodes put in are tried. -/
  tried : ∀ k, (l'.nodes.get k).isSome = true → (l.nodes.get k).isSome = true ∨ Tried l' k

theorem Asks.refl (l : CKadLookup σ ρ) : Asks l l :=
  ⟨rfl, ⟨[], by simp, by simp⟩, fun _ => id, fun _ => id, fun _ => Or.inl⟩

variable {k : ℕ}

theorem Asks.tried_mono (h : Asks l l') (hk : Tried l k) : Tried l' k := by
  obtain ⟨calls, hcalls, -⟩ := h.history
  refine hk.imp (fun hmem => ?_) (h.failed k)
  rw [hcalls]
  exact List.mem_append_left _ hmem

/-- First these nodes are asked, then those. -/
theorem Asks.trans (h : Asks l l') (h' : Asks l' l'') : Asks l l'' where
  target := h'.target.trans h.target
  history := by
    obtain ⟨calls, hcalls, hasks⟩ := h.history
    obtain ⟨calls', hcalls', hasks'⟩ := h'.history
    refine ⟨calls ++ calls', by rw [hcalls', hcalls, List.append_assoc], fun call hcall => ?_⟩
    exact (List.mem_append.mp hcall).elim (hasks call) (hasks' call)
  failed := fun k hk => h'.failed k (h.failed k hk)
  keys := fun k hk => h'.keys k (h.keys k hk)
  tried := by
    intro k hk
    rcases h'.tried k hk with hmem | htried
    · exact (h.tried k hmem).imp id h'.tried_mono
    · exact Or.inr htried

theorem Asks.nodesTried (h : Asks l l') (hl : NodesTried l) : NodesTried l' := fun k hk =>
  (h.tried k hk).elim (fun hmem => h.tried_mono (hl k hmem)) id

theorem Asks.told (h : Asks l l') (hk : Told l' k) : Told l k := by
  obtain ⟨nodes, byID, hmem, hnode⟩ := hk
  obtain ⟨calls, hcalls, hasks⟩ := h.history
  rw [hcalls] at hmem
  refine ⟨nodes, byID, (List.mem_append.mp hmem).resolve_right fun hcall => ?_, hnode⟩
  obtain ⟨k', byID', heq⟩ := hasks _ hcall
  exact HistoryCall.noConfusion heq

theorem Asks.answered (h : Asks l l') (hk : Answered l k) : Answered l' k := by
  obtain ⟨count, hmem⟩ := hk
  obtain ⟨calls, hcalls, -⟩ := h.history
  exact ⟨count, by rw [hcalls]; exact List.mem_append_left _ hmem⟩

/-- Another value for a node, with what the history is told and channels that have failed. -/
theorem Asks.of_modify {f : SNodeStatus σ → SNodeStatus σ} (calls : List HistoryCall)
    (htarget : l'.id = l.id) (hhistory : l'.history = l.history ++ calls)
    (hcalls : ∀ call ∈ calls, ∃ k byID, call = HistoryCall.expectNodes k byID)
    (hfailed : ∀ k ∈ l.failed, k ∈ l'.failed) (hnodes : l'.nodes = l.nodes.modify k f) :
    Asks l l' where
  target := htarget
  history := ⟨calls, hhistory, hcalls⟩
  failed := hfailed
  keys := by
    intro k' hk'
    rw [hnodes, isSome_get_modify, hk']
  tried := by
    intro k' hk'
    rw [hnodes, isSome_get_modify] at hk'
    exact Or.inl hk'

theorem Asks.of_modify_same {f : SNodeStatus σ → SNodeStatus σ} (htarget : l'.id = l.id)
    (hhistory : l'.history = l.history) (hfailed : ∀ k ∈ l.failed, k ∈ l'.failed)
    (hnodes : l'.nodes = l.nodes.modify k f) : Asks l l' :=
  Asks.of_modify [] htarget (by simp [hhistory]) (by simp) hfailed hnodes

/-- A look at a node. -/
theorem asks_checkChannel (uNow k : ℕ) (s : SNodeStatus σ) : Asks l (checkChannel v uNow k s l) := by
  unfold checkChannel
  split
  · exact Asks.refl l
  · have hfields : (loseChannel v k s l).id = l.id ∧ (loseChannel v k s l).history = l.history ∧
        (loseChannel v k s l).failed = l.failed ++ [k] ∧
        (loseChannel v k s l).nodes = l.nodes.modify k (loseStatus v) := by
      unfold loseChannel loseClosest stallLookup
      split_ifs <;> exact ⟨rfl, rfl, rfl, rfl⟩
    obtain ⟨hid, hhistory, hfailed, hnodes⟩ := hfields
    refine Asks.of_modify_same hid hhistory (fun k' hk' => ?_) hnodes
    rw [hfailed]
    exact List.mem_append_left _ hk'
  · split_ifs
    · have hfields : (passTime v k s l).id = l.id ∧ (passTime v k s l).history = l.history ∧
          (passTime v k s l).failed = l.failed ∧
          (passTime v k s l).nodes = l.nodes.modify k (passStatus v) := by
        unfold passTime stallLookup
        split_ifs <;> exact ⟨rfl, rfl, rfl, rfl⟩
      obtain ⟨hid, hhistory, hfailed, hnodes⟩ := hfields
      exact Asks.of_modify_same hid hhistory (fun k' hk' => hfailed ▸ hk') hnodes
    · exact Asks.refl l

theorem asks_checkNodes (uNow : ℕ) (keys : List ℕ) (acc : CKadLookup σ ρ × ℤ) :
    Asks acc.1 (checkNodes v uNow keys acc).1 := by
  induction keys generalizing acc with
  | nil => exact Asks.refl _
  | cons k rest ih =>
    rw [checkNodes]
    split
    · exact ih (acc.1, acc.2)
    · next s hs => exact Asks.trans (asks_checkChannel v uNow k s) (ih (_, _))

/-- The first loop counts no less nodes. -/
theorem le_checkNodes (uNow : ℕ) (keys : List ℕ) (acc : CKadLookup σ ρ × ℤ) :
    acc.2 ≤ (checkNodes v uNow keys acc).2 := by
  induction keys generalizing acc with
  | nil => exact le_rfl
  | cons k rest ih =>
    rw [checkNodes]
    split
    · exact ih (acc.1, acc.2)
    · refine le_trans ?_ (ih _)
      dsimp only
      split_ifs <;> omega

/-- A request changes at most the status of a node that is there. -/
theorem asks_requestNodes (uTimeOut k : ℕ) (channel queued : Bool) (byID : Option ℕ)
    (l : CKadLookup σ ρ) : Asks l (requestNodes uTimeOut k channel queued byID l).1 := by
  unfold requestNodes
  split
  · exact Asks.refl l
  · split_ifs
    · exact Asks.of_modify (k := k) (f := fun s => (s.setState ELookupState.eLookupActive).await uTimeOut)
        [HistoryCall.expectNodes k byID] rfl rfl
        (fun call hcall => ⟨k, byID, List.mem_singleton.mp hcall⟩) (fun _ => id) rfl
    · exact Asks.refl l

/-- A channel is asked for: at most one node is put in. -/
theorem get_getChannel_isSome (k k' : ℕ) (prepared : Bool) (l : CKadLookup σ ρ) :
    ((getChannel v k prepared l).nodes.get k').isSome = true ↔ k' = k ∨ (l.nodes.get k').isSome = true := by
  unfold getChannel
  cases hs : l.nodes.get k with
  | none =>
    dsimp only
    by_cases hk : k' = k
    · simp [hk]
    · simp [get_insert_of_ne _ _ hk, hk]
  | some s =>
    dsimp only
    have hsome : k' = k → (l.nodes.get k').isSome = true := fun hk => by rw [hk, hs]; rfl
    split_ifs
    · rw [CKadLookup.modifyNode, isSome_get_modify]
      exact ⟨Or.inr, fun h => h.elim hsome id⟩
    · exact ⟨Or.inr, fun h => h.elim hsome id⟩

theorem getChannel_fields (k : ℕ) (prepared : Bool) (l : CKadLookup σ ρ) :
    (getChannel v k prepared l).id = l.id ∧ (getChannel v k prepared l).history = l.history ∧
      (getChannel v k prepared l).failed = l.failed := by
  unfold getChannel
  split
  · exact ⟨rfl, rfl, rfl⟩
  · split_ifs <;> exact ⟨rfl, rfl, rfl⟩

theorem history_requestNodes {uTimeOut k : ℕ} {channel queued : Bool} {byID : Option ℕ}
    (h : (requestNodes uTimeOut k channel queued byID l).2 = true) :
    HistoryCall.expectNodes k byID ∈ (requestNodes uTimeOut k channel queued byID l).1.history := by
  unfold requestNodes at h ⊢
  split at h
  · exact absurd h Bool.false_ne_true
  · split_ifs at h ⊢
    exact List.mem_append_right _ (List.mem_singleton_self _)

variable (uTimeOut : ℕ)

/-- A node is asked on its own channel, or the channel fails. -/
theorem asks_askNode (c : Candidate) (l : CKadLookup σ ρ) : Asks l (askNode v uTimeOut c l).1 ∧
      ((askNode v uTimeOut c l).1.nodes.get c.pNode).isSome = true := by
  obtain ⟨hid, hhistory, hfailed⟩ := getChannel_fields v c.pNode c.prepared l
  have hself : ((getChannel v c.pNode c.prepared l).nodes.get c.pNode).isSome = true :=
    (get_getChannel_isSome v _ _ _ _).mpr (Or.inl rfl)
  have hrequest := asks_requestNodes uTimeOut c.pNode
    (hasChannel (getChannel v c.pNode c.prepared l) c.pNode) c.queued none
    (getChannel v c.pNode c.prepared l)
  have hkeys : ∀ l' : CKadLookup σ ρ, Asks (getChannel v c.pNode c.prepared l) l' →
      Tried l' c.pNode → Asks l l' ∧ (l'.nodes.get c.pNode).isSome = true := by
    intro l' hl' htried
    refine ⟨⟨hl'.target.trans hid, ?_, ?_, ?_, ?_⟩, hl'.keys _ hself⟩
    · rw [← hhistory]
      exact hl'.history
    · rw [← hfailed]
      exact hl'.failed
    · intro k hk
      exact hl'.keys k ((get_getChannel_isSome v _ _ _ _).mpr (Or.inr hk))
    · intro k hk
      rcases hl'.tried k hk with hmem | hdone
      · rcases (get_getChannel_isSome v _ _ _ _).mp hmem with rfl | hold
        exacts [Or.inr htried, Or.inl hold]
      · exact Or.inr hdone
  unfold askNode
  dsimp only
  split
  · next l' heq =>
    have hsent := history_requestNodes (l := getChannel v c.pNode c.prepared l) (congrArg Prod.snd heq)
    rw [heq] at hrequest hsent
    exact hkeys l' hrequest (Or.inl hsent)
  · next l' heq =>
    rw [heq] at hrequest
    refine hkeys (l'.fail c.pNode) ?_ (Or.inr (List.mem_append_right _ (List.mem_singleton_self _)))
    exact ⟨hrequest.target, hrequest.history, fun k hk => List.mem_append_left _ (hrequest.failed k hk), hrequest.keys,
      fun k hk => (hrequest.tried k hk).imp id (Or.imp id (List.mem_append_left _))⟩

/-- The second loop asks nodes, and counts those it has asked. -/
theorem asks_askNodes (candidates : List Candidate) (ask : ℤ) (acc : CKadLookup σ ρ × ℤ) :
    Asks acc.1 (askNodes v uTimeOut candidates ask acc).1 ∧ acc.2 ≤ (askNodes v uTimeOut candidates ask acc).2 := by
  induction candidates generalizing ask acc with
  | nil => exact ⟨Asks.refl _, le_rfl⟩
  | cons c rest ih =>
    obtain ⟨l, active⟩ := acc
    have hone : Asks l (askNode v uTimeOut c l).1 := (asks_askNode v uTimeOut c l).1
    rw [askNodes]
    split_ifs
    · exact ⟨Asks.refl _, le_rfl⟩
    · exact ih ask (l, active)
    · split
      · next l' heq =>
        rw [heq] at hone
        obtain ⟨hasks, hle⟩ := ih (ask - 1) (l', active + 1)
        exact ⟨hone.trans hasks, by dsimp only at hle ⊢; omega⟩
      · next l' heq =>
        rw [heq] at hone
        obtain ⟨hasks, hle⟩ := ih ask (l', active)
        exact ⟨hone.trans hasks, hle⟩

theorem isSome_of_used (h : wasNodeUsed l k = true) : (l.nodes.get k).isSome = true := by
  unfold wasNodeUsed at h
  split at h
  · exact absurd h Bool.false_ne_true
  · next hs =>
    rw [hs]
    rfl

/-- When nodes are wanted and no request goes out, all candidates are nodes of the lookup. -/
theorem askNodes_covers {uTimeOut : ℕ} {candidates : List Candidate} {ask : ℤ}
    (acc : CKadLookup σ ρ × ℤ) (hask : 0 < ask) (hactive : 0 ≤ acc.2)
    (hnone : (askNodes v uTimeOut candidates ask acc).2 = 0) :
    ∀ c ∈ candidates, ((askNodes v uTimeOut candidates ask acc).1.nodes.get c.pNode).isSome = true := by
  induction candidates generalizing acc with
  | nil =>
    intro c hc
    exact absurd hc List.not_mem_nil
  | cons c rest ih =>
    obtain ⟨l, active⟩ := acc
    obtain ⟨hone, hmem⟩ := asks_askNode v uTimeOut c l
    rw [askNodes, if_neg (by omega)] at hnone ⊢
    split_ifs at hnone ⊢ with hused
    · intro c' hc'
      rcases List.mem_cons.mp hc' with rfl | hc'
      · exact (asks_askNodes v uTimeOut rest ask (l, active)).1.keys _ (isSome_of_used hused)
      · exact ih (l, active) hactive hnone c' hc'
    · split at hnone
      · next l' heq =>
        have hle := (asks_askNodes v uTimeOut rest (ask - 1) (l', active + 1)).2
        rw [hnone] at hle
        dsimp only at hactive hle
        omega
      · next l' heq =>
        rw [heq] at hmem
        intro c' hc'
        rcases List.mem_cons.mp hc' with rfl | hc'
        · exact (asks_askNodes v uTimeOut rest ask (l', active)).1.keys _ hmem
        · exact ih (l', active) hactive hnone c' hc'

/-- The first loop of `CKadLookup::Process`, with the number of active nodes. -/
def checked (v : Overrides σ ρ) (uNow : ℕ) (l : CKadLookup σ ρ) : CKadLookup σ ρ × ℤ :=
  checkNodes v uNow (nodeKeys l) (l, 0)

/-- Both loops of `CKadLookup::Process`, with the number of active nodes. -/
def searched (v : Overrides σ ρ) (requestTimeOut uNow : ℕ) (candidates : List Candidate)
    (l : CKadLookup σ ρ) : CKadLookup σ ρ × ℤ :=
  askNodes v (uNow + requestTimeOut) candidates
    (askForCloser v (checked v uNow l).2 (checked v uNow l).1) (checked v uNow l)

theorem asks_searched (requestTimeOut uNow : ℕ) (candidates : List Candidate) (l : CKadLookup σ ρ) :
    Asks l (searched v requestTimeOut uNow candidates l).1 ∧
      (checked v uNow l).2 ≤ (searched v requestTimeOut uNow candidates l).2 := by
  have hcheck : Asks l (checked v uNow l).1 := asks_checkNodes v _ _ (l, 0)
  obtain ⟨hasks, hle⟩ := asks_askNodes v (uNow + requestTimeOut) candidates
    (askForCloser v (checked v uNow l).2 (checked v uNow l).1) (checked v uNow l)
  exact ⟨hcheck.trans hasks, hle⟩

theorem Asks.setState (h : Asks l l') (state : ELookupState) : Asks l (l'.setState state) :=
  ⟨h.target, h.history, h.failed, h.keys, h.tried⟩

theorem asks_processLookup (requestTimeOut uNow : ℕ) (candidates : List Candidate)
    (l : CKadLookup σ ρ) : Asks l (processLookup v requestTimeOut uNow candidates l) := by
  have hsearch := (asks_searched v requestTimeOut uNow candidates l).1
  have hcheck : Asks l (checked v uNow l).1 := asks_checkNodes v _ _ (l, 0)
  unfold processLookup lookForNodes
  dsimp only
  split_ifs
  · exact hsearch.setState _
  · exact hsearch
  · exact hcheck

/-- The state of a lookup is none of its loops' concern. -/
theorem state_checkNodes (uNow : ℕ) (keys : List ℕ) (acc : CKadLookup σ ρ × ℤ) :
    (checkNodes v uNow keys acc).1.lookupState = acc.1.lookupState := by
  induction keys generalizing acc with
  | nil => rfl
  | cons k rest ih =>
    rw [checkNodes]
    split
    · exact ih (acc.1, acc.2)
    · rw [ih]
      dsimp only
      unfold checkChannel
      split
      · rfl
      · unfold loseChannel loseClosest stallLookup
        split_ifs <;> rfl
      · unfold passTime stallLookup
        split_ifs <;> rfl

/-- Nor when nodes are asked. -/
theorem state_askNode (c : Candidate) (l : CKadLookup σ ρ) :
    (askNode v uTimeOut c l).1.lookupState = l.lookupState := by
  have hchannel : (getChannel v c.pNode c.prepared l).lookupState = l.lookupState := by
    unfold getChannel
    split
    · rfl
    · split_ifs <;> rfl
  have hrequest : ∀ channel, (requestNodes uTimeOut c.pNode channel c.queued none
      (getChannel v c.pNode c.prepared l)).1.lookupState = l.lookupState := by
    intro channel
    unfold requestNodes
    split
    · exact hchannel
    · split_ifs
      exacts [hchannel, hchannel]
  have hsame := hrequest (hasChannel (getChannel v c.pNode c.prepared l) c.pNode)
  unfold askNode
  dsimp only
  split
  · next heq =>
    rw [heq] at hsame
    exact hsame
  · next heq =>
    rw [heq] at hsame
    exact hsame

/-- Nor in the second loop. -/
theorem state_askNodes (candidates : List Candidate) (ask : ℤ) (acc : CKadLookup σ ρ × ℤ) :
    (askNodes v uTimeOut candidates ask acc).1.lookupState = acc.1.lookupState := by
  induction candidates generalizing ask acc with
  | nil => rfl
  | cons c rest ih =>
    obtain ⟨l, active⟩ := acc
    have hone := state_askNode v uTimeOut c l
    rw [askNodes]
    split_ifs
    · rfl
    · exact ih ask (l, active)
    · split
      · next heq =>
        rw [heq] at hone
        exact (ih _ _).trans hone
      · next heq =>
        rw [heq] at hone
        exact (ih _ _).trans hone

/-- A lookup that ends has found no node active, and no request has gone out. -/
theorem searched_of_finished {requestTimeOut uNow : ℕ} {candidates : List Candidate}
    (hactive : l.lookupState = ELookupState.eLookupActive)
    (hfinished : (processLookup v requestTimeOut uNow candidates l).lookupState = ELookupState.eLookupFinished) :
    (searched v requestTimeOut uNow candidates l).2 = 0 ∧ processLookup v requestTimeOut uNow candidates l =
        (searched v requestTimeOut uNow candidates l).1.setState ELookupState.eLookupFinished := by
  have hchecked : (checked v uNow l).1.lookupState = ELookupState.eLookupActive :=
    (state_checkNodes v _ _ (l, 0)).trans hactive
  have hprocess : processLookup v requestTimeOut uNow candidates l =
      if (searched v requestTimeOut uNow candidates l).2 = 0 then
        (searched v requestTimeOut uNow candidates l).1.setState ELookupState.eLookupFinished
      else (searched v requestTimeOut uNow candidates l).1 := if_pos hchecked
  rw [hprocess] at hfinished ⊢
  split_ifs at hfinished ⊢ with hnone
  · exact ⟨hnone, rfl⟩
  · have hstate : (searched v requestTimeOut uNow candidates l).1.lookupState =
        ELookupState.eLookupActive := (state_askNodes v _ _ _ _).trans hchecked
    rw [hstate] at hfinished
    exact ELookupState.noConfusion hfinished

/-- The loop over named nodes. -/
theorem asks_countCloser (uTimeOut pNode uDistance : ℕ) (queued : ℕ → Bool)
    (found : List (ℕ × ℕ)) (count : ℕ) (l : CKadLookup σ ρ) :
    Asks l (countCloser uTimeOut pNode uDistance queued found count l).1 := by
  induction found generalizing count l with
  | nil => exact Asks.refl l
  | cons e rest ih =>
    obtain ⟨distance, node⟩ := e
    rw [countCloser]
    split_ifs
    · exact ih _ _
    · exact ih _ _
    · exact ih _ _
    · have hone := asks_requestNodes uTimeOut node true (queued node) (some pNode) l
      split
      · next heq =>
        rw [heq] at hone
        exact hone.trans (ih _ _)
      · next heq =>
        rw [heq] at hone
        exact hone.trans (ih _ _)

end History

section Run

variable {p : Settings} {l : CKadLookup Unit Unit}

/-- What is known of the nodes that a lookup was told about: they are not closer than some
node that has answered, or they were tried, or they were not used when they were named. -/
structure Known (p : Settings) (missed : List ℕ) (l : CKadLookup Unit Unit) : Prop where
  /-- The nodes of the lookup. -/
  nodes : NodesTried l
  /-- The nodes it was told about. -/
  told : ∀ k, Told l k → (∃ a, Answered l a ∧ distance p l a ≤ distance p l k) ∨ Tried l k ∨ k ∈ missed

theorem Known.asks {missed : List ℕ} {l' : CKadLookup Unit Unit} (h : Known p missed l)
    (hasks : Asks l l') : Known p missed l' where
  nodes := hasks.nodesTried h.nodes
  told := by
    intro k hk
    rcases h.told k (hasks.told hk) with ⟨a, ha, hle⟩ | htried | hmissed
    · refine Or.inl ⟨a, hasks.answered ha, ?_⟩
      unfold distance at hle ⊢
      rw [hasks.target]
      exact hle
    · exact Or.inr (Or.inl (hasks.tried_mono htried))
    · exact Or.inr (Or.inr hmissed)

/-- The nodes that an answer names closer than the one that answers and not used. -/
def missedNodes (p : Settings) (l : CKadLookup Unit Unit) : Op → List ℕ
  | .nodesAnswered _ pNode _ named =>
    (foundNodes p l named).entries.filterMap fun e =>
      if e.1 < distance p l pNode && !wasNodeUsed l e.2 then some e.2 else none
  | _ => []

/-- All of them in a run. -/
def missed (p : Settings) : CKadLookup Unit Unit → List Op → List ℕ
  | _, [] => []
  | l, op :: ops => missedNodes p l op ++ missed p (step p l op) ops

theorem foundNodes_distance {named : List ℕ} {e : ℕ × ℕ}
    (he : e ∈ (foundNodes p l named).entries) : e.1 = distance p l e.2 := by
  have hfold : ∀ (named : List ℕ) (m : OrderedMap ℕ ℕ), (∀ e ∈ m.entries, e.1 = distance p l e.2) →
      ∀ e ∈ (named.foldl (insertNode p l) m).entries, e.1 = distance p l e.2 := by
    intro named
    induction named with
    | nil => exact fun m h => h
    | cons k rest ih =>
      intro m h
      refine ih (insertNode p l m k) fun e he => ?_
      unfold insertNode at he
      split_ifs at he
      · exact h e he
      · rcases mem_insert.mp he with rfl | ⟨hold, -⟩
        exacts [rfl, h e hold]
  exact hfold named empty (fun e he => absurd he List.not_mem_nil) e he

/-- After an answer is counted. -/
theorem asks_answered (pNode closerCount : ℕ) : ((onCloserNodes pNode closerCount l).1.id = l.id ∧
      (onCloserNodes pNode closerCount l).1.history = l.history ++ [HistoryCall.registerNodes pNode closerCount] ∧
      (onCloserNodes pNode closerCount l).1.failed = l.failed) ∧
      ∀ k, ((onCloserNodes pNode closerCount l).1.nodes.get k).isSome = (l.nodes.get k).isSome := by
  unfold onCloserNodes CKadLookup.tell
  dsimp only
  split
  · exact ⟨⟨rfl, rfl, rfl⟩, fun _ => rfl⟩
  · unfold closerNodes CKadLookup.addClosest CKadLookup.modifyNode
    split_ifs
    · exact ⟨⟨rfl, rfl, rfl⟩, fun k => isSome_get_modify _ _ _ _⟩
    · exact ⟨⟨rfl, rfl, rfl⟩, fun k => isSome_get_modify _ _ _ _⟩
    · exact ⟨⟨rfl, rfl, rfl⟩, fun k => isSome_get_modify _ _ _ _⟩

variable {missedBefore : List ℕ}

/-- An answer adds what it names, and the nodes missed. -/
theorem Known.nodesAnswered (h : Known p missedBefore l) (uNow pNode : ℕ) (queued : ℕ → Bool) (named : List ℕ) :
    Known p (missedBefore ++ missedNodes p l (.nodesAnswered uNow pNode queued named))
      (nodesAnswered p uNow pNode queued named l) := by
  let told := l.tell (HistoryCall.addNodes ((foundNodes p l named).entries.map Prod.snd) pNode)
  let counted := countNamed p uNow pNode queued named l
  have hasks : Asks told counted.1 := asks_countCloser _ _ _ _ _ _ _
  obtain ⟨⟨hid, hhistory, hfailed⟩, hkeys⟩ := asks_answered (l := counted.1) pNode counted.2
  have htried : ∀ k, Tried counted.1 k → Tried (KadLookup.nodesAnswered p uNow pNode queued named l) k := by
    intro k hk
    unfold Tried at hk ⊢
    change _ ∈ (onCloserNodes pNode counted.2 counted.1).1.history ∨
      _ ∈ (onCloserNodes pNode counted.2 counted.1).1.failed
    rw [hhistory, hfailed]
    exact hk.imp (List.mem_append_left _) id
  have htold : ∀ k, Tried l k → Tried told k := fun k hk => hk.imp (List.mem_append_left _) id
  have hdistance : ∀ k, distance p (KadLookup.nodesAnswered p uNow pNode queued named l) k =
      distance p l k := by
    intro k
    unfold distance
    change (onCloserNodes pNode counted.2 counted.1).1.id ^^^ _ = _
    rw [hid, hasks.target]
    rfl
  refine ⟨fun k hk => ?_, fun k hk => ?_⟩
  · have hcounted : (counted.1.nodes.get k).isSome = true := by rw [← hkeys]; exact hk
    refine htried k ((hasks.tried k hcounted).elim (fun hmem => ?_) id)
    exact hasks.tried_mono (htold k (h.nodes k hmem))
  · obtain ⟨nodes, byID, hmem, hnode⟩ := hk
    change _ ∈ (onCloserNodes pNode counted.2 counted.1).1.history at hmem
    rw [hhistory] at hmem
    have hbefore : Told told k := by
      refine hasks.told ⟨nodes, byID, (List.mem_append.mp hmem).resolve_right fun hlast => ?_, hnode⟩
      exact HistoryCall.noConfusion (List.mem_singleton.mp hlast)
    have hanswered : ∀ a, Answered told a → Answered (KadLookup.nodesAnswered p uNow pNode queued named l) a := by
      intro a ha
      obtain ⟨count, hcount⟩ := hasks.answered ha
      refine ⟨count, ?_⟩
      change _ ∈ (onCloserNodes pNode counted.2 counted.1).1.history
      rw [hhistory]
      exact List.mem_append_left _ hcount
    obtain ⟨nodes', byID', hmem', hnode'⟩ := hbefore
    rcases List.mem_append.mp hmem' with hold | hnew
    · rcases h.told k ⟨nodes', byID', hold, hnode'⟩ with ⟨a, ⟨count, hcount⟩, hle⟩ | hdone | hmissed
      · refine Or.inl ⟨a, hanswered a ⟨count, List.mem_append_left _ hcount⟩, ?_⟩
        rw [hdistance, hdistance]
        exact hle
      · exact Or.inr (Or.inl (htried k (hasks.tried_mono (htold k hdone))))
      · exact Or.inr (Or.inr (List.mem_append_left _ hmissed))
    · cases List.mem_singleton.mp hnew
      obtain ⟨e, he, rfl⟩ := List.mem_map.mp hnode'
      by_cases hcloser : e.1 < distance p l pNode
      · by_cases hused : wasNodeUsed l e.2 = true
        · exact Or.inr (Or.inl (htried _ (hasks.tried_mono (htold _ (h.nodes _ (isSome_of_used hused))))))
        · refine Or.inr (Or.inr (List.mem_append_right _ ?_))
          exact List.mem_filterMap.mpr ⟨e, he, by simp [hcloser, hused]⟩
      · refine Or.inl ⟨pNode, ⟨counted.2, ?_⟩, ?_⟩
        · change _ ∈ (onCloserNodes pNode counted.2 counted.1).1.history
          rw [hhistory]
          exact List.mem_append_right _ (List.mem_singleton_self _)
        · rw [hdistance, hdistance, ← foundNodes_distance he]
          omega

theorem Known.append_nil {missedBefore more : List ℕ} (h : Known p missedBefore l)
    (hmore : more = []) : Known p (missedBefore ++ more) l := by
  rw [hmore, List.append_nil]
  exact h

/-- What is known after a step. -/
theorem Known.step (h : Known p missedBefore l) (op : Op) :
    Known p (missedBefore ++ missedNodes p l op) (step p l op) := by
  cases op with
  | process uNow candidates => exact (h.asks (asks_processLookup _ _ _ _ _)).append_nil rfl
  | nodesAnswered uNow pNode queued named => exact h.nodesAnswered uNow pNode queued named
  | disconnect pNode =>
    have hasks : Asks l (disconnect pNode l) :=
      Asks.of_modify_same (k := pNode) (f := SNodeStatus.disconnect) rfl rfl (fun _ => id) rfl
    exact (h.asks hasks).append_nil rfl
  | start =>
    refine Known.append_nil (h.asks ?_) rfl
    unfold KadLookup.step initOperation
    split_ifs
    · exact (Asks.refl l).setState _
    · exact Asks.refl l
  | stop => exact Known.append_nil ⟨fun k hk => absurd hk Bool.false_ne_true, h.told⟩ rfl

theorem Known.run (h : Known p missedBefore l) (ops : List Op) :
    Known p (missedBefore ++ missed p l ops) (run p l ops) := by
  induction ops generalizing missedBefore l with
  | nil =>
    rw [missed, List.append_nil]
    exact h
  | cons op ops ih =>
    rw [missed, ← List.append_assoc]
    exact ih (h.step op)

/-- The condition on the step that ends the lookup, where no node is active any more and no
request goes out: no node was missed, or closer nodes are wanted and the nodes missed are
still in the routing table. -/
def FinishMeets (p : Settings) (uNow : ℕ) (candidates : List Candidate) (missed : List ℕ)
    (l : CKadLookup Unit Unit) : Prop :=
  (searched (plain p) p.requestTimeOut uNow candidates l).2 = 0 → missed = [] ∨
    (checked (plain p) uNow l).1.closestNodes < p.brancheCount ∧ ∀ k ∈ missed, ∃ c ∈ candidates, c.pNode = k

/-- The settings of the examples, with one node that is asked at a time. -/
def exampleSettings : Settings := ⟨id, 1, 10⟩

/-- A lookup for the target 0. -/
def exampleLookup : CKadLookup Unit Unit := CKadLookup.new 0 1 0 ()

/-- Node 8 is asked, and names others. -/
def exampleRun (named : List ℕ) : List Op :=
  [.start, .process 5 [⟨8, true, true⟩], .nodesAnswered 6 8 (fun _ => true) named]

end Run

end NeoLoader.LookupConvergence
