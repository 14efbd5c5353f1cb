import NeoLoader.KadRelay

/-!
# The number of pending relays

The number of pending relays that a relay keeps, against the requests for an up link that
are open.
-/

namespace NeoLoader.PendingRelays

open KeyMap KeyMap.OrderedMap KadLookup KadRelay

section Relay

variable {p : KadRelay.Settings} {l : CKadRelay}

/-- An open request counts. -/
def pendingWeight (s : SNodeStatus SRelayState) : ℤ := if s.own.pending then 1 else 0

/-- Number of nodes with an open request for an up link. -/
def pendingCount (l : CKadRelay) : ℤ := l.nodes.total fun _ s => pendingWeight s

theorem pendingCount_nonneg (l : CKadRelay) : 0 ≤ pendingCount l := by
  refine total_nonneg fun k s _ => ?_
  unfold pendingWeight
  split_ifs <;> simp

/-- A node with an open request has a channel and is not stalled. -/
def NodeOk (s : SNodeStatus SRelayState) : Prop :=
  s.own.pending = true → s.pChannel.isSome = true ∧ ∃ t, s.uTimeOut = some t ∧ t ≠ 0

/-- The open requests are counted. -/
structure PendingOk (l : CKadRelay) : Prop where
  /-- `m_PendingRelays` is their number. -/
  count : l.own.pendingRelays = pendingCount l
  /-- Nodes with an open request. -/
  nodes : ∀ k s, l.nodes.get k = some s → NodeOk s

variable {l' : CKadRelay}

theorem PendingOk.of_eq (h : PendingOk l) (hnodes : l'.nodes = l.nodes)
    (hpending : l'.own.pendingRelays = l.own.pendingRelays) : PendingOk l' where
  count := by
    rw [hpending, h.count]
    unfold pendingCount
    rw [hnodes]
  nodes := by
    rw [hnodes]
    exact h.nodes

variable {s : SNodeStatus SRelayState}

/-- A node with an open request is one of those counted. -/
theorem PendingOk.one_le (h : PendingOk l) {k : ℕ}
    (hs : l.nodes.get k = some s) (hpending : s.own.pending = true) : 1 ≤ l.own.pendingRelays := by
  have herase : 0 ≤ (l.nodes.erase k).total fun _ s => pendingWeight s := by
    refine total_nonneg fun k s _ => ?_
    unfold pendingWeight
    split_ifs <;> simp
  rw [total_erase, hs] at herase
  have hweight : pendingWeight s = 1 := if_pos hpending
  rw [Option.elim_some, hweight] at herase
  rw [h.count]
  unfold pendingCount
  linarith

variable {f : SNodeStatus SRelayState → SNodeStatus SRelayState}

/-- Another value for a node, and as many pending relays more. -/
theorem PendingOk.modify (h : PendingOk l) {k : ℕ} (hs : l.nodes.get k = some s)
    (hok : NodeOk (f s)) (hnodes : l'.nodes = l.nodes.modify k f) (hpending : l'.own.pendingRelays =
      l.own.pendingRelays + (pendingWeight (f s) - pendingWeight s)) : PendingOk l' where
  count := by
    unfold pendingCount
    rw [hpending, hnodes, total_modify, hs, h.count]
    rfl
  nodes := by
    intro k' s' hs'
    rw [hnodes] at hs'
    by_cases hk : k' = k
    · rw [hk, get_modify_self, hs] at hs'
      cases hs'
      exact hok
    · rw [get_modify_of_ne _ _ hk] at hs'
      exact h.nodes k' s' hs'

/-- Another value for a node with the same request. -/
theorem PendingOk.modify_same (h : PendingOk l) {k : ℕ}
    (hf : ∀ s, l.nodes.get k = some s → (f s).own.pending = s.own.pending ∧ NodeOk (f s))
    (hnodes : l'.nodes = l.nodes.modify k f)
    (hpending : l'.own.pendingRelays = l.own.pendingRelays) : PendingOk l' where
  count := by
    unfold pendingCount
    rw [hpending, hnodes, total_modify, h.count]
    cases hs : l.nodes.get k with
    | none => simp [pendingCount]
    | some s => simp [pendingCount, pendingWeight, (hf s hs).1]
  nodes := by
    intro k' s' hs'
    rw [hnodes] at hs'
    by_cases hk : k' = k
    · rw [hk, get_modify_self] at hs'
      obtain ⟨s, hs, rfl⟩ := Option.map_eq_some_iff.mp hs'
      exact (hf s hs).2
    · rw [get_modify_of_ne _ _ hk] at hs'
      exact h.nodes k' s' hs'

/-- A node that stalls has an open request, or there is none at all. -/
def StallMeets (l : CKadRelay) (s : SNodeStatus SRelayState) : Prop :=
  s.uTimeOut ≠ some 0 → s.own.pending = true ∨ l.own.pendingRelays = 0

theorem PendingOk.stall (h : PendingOk l) {k : ℕ} (hs : l.nodes.get k = some s)
    (hf : (f s).own.pending = (stallOwn (overrides p) s).pending) (hmeets : StallMeets l s)
    (hnodes : l'.nodes = l.nodes.modify k f)
    (hown : l'.own = if s.uTimeOut = some 0 then l.own else nodeStalling l.own) : PendingOk l' := by
  have hnone : (f s).own.pending = false := by
    rw [hf]
    unfold stallOwn
    split_ifs with hzero
    · by_contra hpending
      obtain ⟨-, t, ht, hne⟩ := h.nodes k s hs (Bool.eq_true_of_not_eq_false hpending)
      exact hne (Option.some.inj (ht.symm.trans hzero))
    · rfl
  have hok : NodeOk (f s) := fun hpending => absurd (hnone.symm.trans hpending) Bool.false_ne_true
  refine h.modify hs hok hnodes ?_
  have hweight : pendingWeight (f s) = 0 := if_neg (by simp [hnone])
  rw [hown, hweight]
  unfold nodeStalling
  split_ifs with hzero hpos
  · have hsame : s.own.pending = false := by
      rw [← hnone, hf]
      unfold stallOwn
      rw [if_pos hzero]
    simp [pendingWeight, hsame]
  · have hpending : s.own.pending = true := (hmeets hzero).resolve_right (by omega)
    simp only [pendingWeight, hpending, if_true]
    ring
  · have hsame : s.own.pending = false := by
      by_contra hne
      have hone := h.one_le hs (Bool.eq_true_of_not_eq_false hne)
      omega
    simp [pendingWeight, hsame]

/-- A node whose request is found out of time, or its channel disconnected. -/
def Fails (uNow : ℕ) (s : SNodeStatus SRelayState) : Prop :=
  s.pChannel = some true ∨ s.pChannel = some false ∧ timedOut s.uTimeOut uNow = true

/-- The nodes that fail have an open request or are stalled, or no request is open. -/
def FailsMeet (uNow : ℕ) (keys : List ℕ) (l : CKadRelay) : Prop :=
  l.own.pendingRelays = 0 ∨ ∀ k ∈ keys, ∀ s, l.nodes.get k = some s → Fails uNow s →
    s.uTimeOut ≠ some 0 → s.own.pending = true

/-- A look at a node that meets the condition. -/
theorem PendingOk.checkChannel (h : PendingOk l) {uNow k : ℕ}
    (hs : l.nodes.get k = some s) (hmeets : Fails uNow s → StallMeets l s) :
    PendingOk (checkChannel (overrides p) uNow k s l) := by
  unfold KadLookup.checkChannel
  split
  · exact h
  · next hchannel =>
    refine h.stall (f := loseStatus (overrides p)) hs rfl (hmeets (Or.inl hchannel)) ?_ ?_
    · unfold loseChannel loseClosest stallLookup
      split_ifs <;> rfl
    · unfold loseChannel loseClosest stallLookup
      split_ifs <;> rfl
  · next hchannel =>
    split_ifs with htime
    · refine h.stall (f := passStatus (overrides p)) hs rfl (hmeets (Or.inr ⟨hchannel, htime⟩)) ?_ ?_
      · unfold passTime stallLookup
        split_ifs <;> rfl
      · unfold passTime stallLookup
        split_ifs <;> rfl
    · exact h

/-- A look at a node leaves the others. -/
theorem get_checkChannel_of_ne {uNow k k' : ℕ} (hk : k' ≠ k) :
    (checkChannel (overrides p) uNow k s l).nodes.get k' = l.nodes.get k' := by
  unfold checkChannel
  split
  · rfl
  · have hnodes : (loseChannel (overrides p) k s l).nodes = l.nodes.modify k (loseStatus (overrides p)) := by
      unfold loseChannel loseClosest stallLookup
      split_ifs <;> rfl
    rw [hnodes, get_modify_of_ne _ _ hk]
  · split_ifs
    · have hnodes : (passTime (overrides p) k s l).nodes = l.nodes.modify k (passStatus (overrides p)) := by
        unfold passTime stallLookup
        split_ifs <;> rfl
      rw [hnodes, get_modify_of_ne _ _ hk]
    · rfl

/-- A look at a node makes no relay pending. -/
theorem pending_checkChannel {uNow k : ℕ} (h : l.own.pendingRelays = 0) :
    (checkChannel (overrides p) uNow k s l).own.pendingRelays = 0 := by
  have hstall : (nodeStalling l.own).pendingRelays = 0 := by
    unfold nodeStalling
    rw [if_neg (by omega), h]
  unfold checkChannel
  split
  · exact h
  · unfold loseChannel loseClosest stallLookup
    split_ifs
    exacts [h, hstall, h, hstall]
  · split_ifs
    · unfold passTime stallLookup
      split_ifs
      exacts [h, hstall]
    · exact h

/-- The first loop over nodes that meet the condition. -/
theorem PendingOk.checkNodes {uNow : ℕ} {keys : List ℕ} (hkeys : keys.Nodup)
    {acc : CKadRelay × ℤ} (h : PendingOk acc.1) (hmeets : FailsMeet uNow keys acc.1) :
    PendingOk (checkNodes (overrides p) uNow keys acc).1 := by
  induction keys generalizing acc with
  | nil => exact h
  | cons k rest ih =>
    obtain ⟨hnot, hrest⟩ := List.nodup_cons.mp hkeys
    rw [KadLookup.checkNodes]
    split
    · refine ih hrest h (hmeets.imp id fun hall k' hk' => hall k' (List.mem_cons_of_mem _ hk'))
    · next s hs =>
      have hstall : Fails uNow s → StallMeets acc.1 s := fun hfails hne =>
        hmeets.symm.imp (fun hall => hall k List.mem_cons_self s hs hfails hne) id
      refine ih hrest (h.checkChannel hs hstall) (hmeets.imp pending_checkChannel ?_)
      intro hall k' hk' s' hs' hfails hne
      have hother : k' ≠ k := fun heq => hnot (heq ▸ hk')
      rw [get_checkChannel_of_ne hother] at hs'
      exact hall k' (List.mem_cons_of_mem _ hk') s' hs' hfails hne

/-- A channel is asked for. -/
theorem PendingOk.getChannel (h : PendingOk l) (k : ℕ) (prepared : Bool) :
    PendingOk (getChannel (overrides p) k prepared l) := by
  unfold KadLookup.getChannel
  cases hs : l.nodes.get k with
  | none =>
    refine ⟨?_, fun k' s' hs' => ?_⟩
    · unfold pendingCount
      dsimp only
      rw [total_insert, hs, h.count]
      cases prepared <;> simp [pendingCount, pendingWeight, newStatus, SNodeStatus.reopen, overrides]
    · dsimp only at hs'
      by_cases hk : k' = k
      · rw [hk, get_insert_self] at hs'
        cases prepared <;> cases hs' <;> exact fun hpending => absurd hpending Bool.false_ne_true
      · rw [get_insert_of_ne _ _ hk] at hs'
        exact h.nodes k' s' hs'
  | some s =>
    dsimp only
    split_ifs
    · refine h.modify_same (k := k) (f := SNodeStatus.reopen) (fun s hs => ⟨rfl, fun hpending => ⟨rfl, ?_⟩⟩) rfl rfl
      exact (h.nodes k s hs hpending).2
    · exact h

/-- A node without a request is asked for closer nodes. -/
theorem PendingOk.requestNodes (h : PendingOk l) (uTimeOut k : ℕ) (channel queued : Bool)
    (byID : Option ℕ) : PendingOk (requestNodes uTimeOut k channel queued byID l).1 := by
  unfold KadLookup.requestNodes
  cases hs : l.nodes.get k with
  | none => exact h
  | some s =>
    dsimp only
    split_ifs with hcond
    · simp only [Bool.and_eq_true, decide_eq_true_eq] at hcond
      have hnone : s.own.pending = false := by
        by_contra hpending
        obtain ⟨-, t, ht, -⟩ := h.nodes k s hs (Bool.eq_true_of_not_eq_false hpending)
        exact absurd (hcond.1.2.symm.trans ht) (Option.some_ne_none t).symm
      refine h.modify_same (k := k) (f := fun s => (s.setState ELookupState.eLookupActive).await uTimeOut) ?_ rfl rfl
      intro s' hs'
      rw [hs, Option.some.injEq] at hs'
      subst hs'
      exact ⟨rfl, fun hpending => absurd (hnone.symm.trans hpending) Bool.false_ne_true⟩
    · exact h

/-- A node is asked on its own channel. -/
theorem PendingOk.askNode (h : PendingOk l) (uTimeOut : ℕ) (c : Candidate) :
    PendingOk (askNode (overrides p) uTimeOut c l).1 := by
  have hrequest := (h.getChannel (p := p) c.pNode c.prepared).requestNodes uTimeOut c.pNode
    (hasChannel (KadLookup.getChannel (overrides p) c.pNode c.prepared l) c.pNode) c.queued none
  unfold KadLookup.askNode
  dsimp only
  split
  · next heq =>
    rw [heq] at hrequest
    exact hrequest
  · next heq =>
    rw [heq] at hrequest
    exact hrequest.of_eq rfl rfl

/-- The second loop. -/
theorem PendingOk.askNodes (uTimeOut : ℕ) (candidates : List Candidate) (ask : ℤ)
    {acc : CKadRelay × ℤ} (h : PendingOk acc.1) : PendingOk (askNodes (overrides p) uTimeOut candidates ask acc).1 := by
  induction candidates generalizing ask acc with
  | nil => exact h
  | cons c rest ih =>
    obtain ⟨l, active⟩ := acc
    rw [KadLookup.askNodes]
    split_ifs
    · exact h
    · exact ih _ h
    · have hone : PendingOk (KadLookup.askNode (overrides p) uTimeOut c l).1 :=
        PendingOk.askNode h uTimeOut c
      split
      · next heq =>
        rw [heq] at hone
        exact ih _ hone
      · next heq =>
        rw [heq] at hone
        exact ih _ hone

section

variable (h : PendingOk l)

include h

/-- `CKadLookup::Process` over nodes that meet the condition. -/
theorem PendingOk.processLookup {requestTimeOut uNow : ℕ}
    (candidates : List Candidate) (hmeets : FailsMeet uNow (nodeKeys l) l) :
    PendingOk (processLookup (overrides p) requestTimeOut uNow candidates l) := by
  have hcheck : PendingOk (KadLookup.checkNodes (overrides p) uNow (nodeKeys l) (l, 0)).1 :=
    PendingOk.checkNodes (nodup_keys l.nodes) h hmeets
  unfold KadLookup.processLookup lookForNodes
  dsimp only
  split_ifs
  · exact (PendingOk.askNodes _ candidates _ hcheck).of_eq rfl rfl
  · exact PendingOk.askNodes _ candidates _ hcheck
  · exact hcheck

/-- A request for an up link, with a channel and in time to come. -/
theorem PendingOk.requestUpLink {uTimeOut pNode : ℕ} {channel : Bool} (queued : Bool) (htime : uTimeOut ≠ 0)
    (hchannel : ∀ s, l.nodes.get pNode = some s → channel = true → s.pChannel.isSome = true) :
    PendingOk (requestUpLink uTimeOut pNode channel queued l).1 := by
  unfold KadRelay.requestUpLink
  cases hs : l.nodes.get pNode with
  | none => exact h
  | some s =>
    dsimp only
    split_ifs with hcond
    · simp only [Bool.and_eq_true, decide_eq_true_eq] at hcond
      have hnone : s.own.pending = false := by
        by_contra hpending
        obtain ⟨-, t, ht, -⟩ := h.nodes pNode s hs (Bool.eq_true_of_not_eq_false hpending)
        exact absurd (hcond.1.2.symm.trans ht) (Option.some_ne_none t).symm
      refine h.modify (f := fun s => setPending true (s.await uTimeOut)) hs ?_ rfl ?_
      · exact fun _ => ⟨hchannel s hs hcond.1.1, uTimeOut, rfl, htime⟩
      · have hweight : pendingWeight s = 0 := if_neg (by simp [hnone])
        rw [hweight, sub_zero]
        rfl
    · exact h

theorem PendingOk.askRelay {uNow : ℕ} (htime : uNow + p.requestTimeOut ≠ 0)
    (c : Candidate) : PendingOk (askRelay p uNow c l).1 := by
  unfold KadRelay.askRelay
  refine (h.getChannel c.pNode c.prepared).requestUpLink _ htime fun s hs hchannel => ?_
  unfold hasChannel at hchannel
  rw [hs] at hchannel
  exact hchannel

/-- The loop for up links. -/
theorem PendingOk.askRelays {uNow : ℕ} (htime : uNow + p.requestTimeOut ≠ 0)
    (relays : List Candidate) (ask : ℤ) : PendingOk (askRelays p uNow relays ask l) := by
  induction relays generalizing ask l with
  | nil => exact h
  | cons c rest ih =>
    rw [KadRelay.askRelays]
    split_ifs
    · exact h
    · exact h
    · exact ih h _
    · have hone : PendingOk (KadRelay.askRelay p uNow c l).1 := h.askRelay htime c
      split
      · next heq =>
        rw [heq] at hone
        exact ih hone _
      · next heq =>
        rw [heq] at hone
        exact ih hone _

theorem PendingOk.initOperation : PendingOk (initOperation l) := by
  unfold KadLookup.initOperation
  split_ifs
  · exact h.of_eq rfl rfl
  · exact h

/-- The reset takes out no node with an open request. -/
theorem PendingOk.reset (uNow : ℕ) : PendingOk (reset p uNow l) := by
  unfold KadRelay.reset resetNodes
  split_ifs
  · refine PendingOk.initOperation ⟨?_, fun k s hs => ?_⟩
    · unfold pendingCount
      dsimp only
      rw [total_filter fun k s hs hnone => ?_, h.count]
      · rfl
      · refine if_neg fun hpending => ?_
        have hsome := (h.nodes k s hs hpending).1
        rw [hnone] at hsome
        exact Bool.false_ne_true hsome
    · dsimp only at hs
      rw [get_filter] at hs
      exact h.nodes k s (Option.filter_eq_some_iff.mp hs).1
  · exact h

/-- The channels that are not needed are closed. -/
theorem PendingOk.closeUnneeded : PendingOk (closeUnneeded l) := by
  unfold KadRelay.closeUnneeded
  split_ifs with hzero
  · refine ⟨?_, fun k s hs => ?_⟩
    · unfold pendingCount
      dsimp only
      rw [total_mapEntries fun k s _ => (rfl : pendingWeight s.close = pendingWeight s), h.count]
      rfl
    · dsimp only at hs
      rw [get_mapEntries] at hs
      obtain ⟨s', hs', rfl⟩ := Option.map_eq_some_iff.mp hs
      intro hpending
      have hone := h.one_le hs' hpending
      omega
  · exact h

/-- A node without an open request answers. -/
theorem PendingOk.onCloserNodes {pNode : ℕ} (closerCount : ℕ)
    (hmeets : ∀ s, l.nodes.get pNode = some s → s.own.pending = false) :
    PendingOk (onCloserNodes pNode closerCount l).1 := by
  have hnode : ∀ (f : SNodeStatus SRelayState → SNodeStatus SRelayState) (l' : CKadRelay),
      (∀ s, (f s).own = s.own) → l'.nodes = l.nodes.modify pNode f →
      l'.own.pendingRelays = l.own.pendingRelays → PendingOk l' := by
    intro f l' hf hnodes hpending
    refine h.modify_same (fun s hs => ⟨by rw [hf], fun hp => ?_⟩) hnodes hpending
    rw [hf, hmeets s hs] at hp
    exact absurd hp Bool.false_ne_true
  unfold KadLookup.onCloserNodes CKadLookup.tell
  dsimp only
  split
  · exact h.of_eq rfl rfl
  · unfold closerNodes
    split_ifs
    · exact hnode (fun s => s.answered.setState ELookupState.eLookupFinished) _ (fun _ => rfl) rfl rfl
    · exact hnode SNodeStatus.answered _ (fun _ => rfl) rfl rfl
    · exact hnode (fun s => s.answered.setState ELookupState.eLookupClosest) _ (fun _ => rfl) rfl rfl

/-- The loop over named nodes. -/
theorem PendingOk.countCloser (uTimeOut pNode uDistance : ℕ) (queued : ℕ → Bool) (found : List (ℕ × ℕ)) (count : ℕ) :
    PendingOk (countCloser uTimeOut pNode uDistance queued found count l).1 := by
  induction found generalizing count l with
  | nil => exact h
  | cons e rest ih =>
    obtain ⟨distance, node⟩ := e
    rw [KadLookup.countCloser]
    split_ifs
    · exact ih h _
    · exact ih h _
    · exact ih h _
    · have hone : PendingOk (KadLookup.requestNodes uTimeOut node true (queued node) (some pNode) l).1 :=
        h.requestNodes _ _ _ _ _
      split
      · next heq =>
        rw [heq] at hone
        exact ih hone _
      · next heq =>
        rw [heq] at hone
        exact ih hone _

theorem PendingOk.addNodes (uTimeOut pNode uDistance : ℕ) (queued : ℕ → Bool)
    (found : OrderedMap ℕ ℕ) : PendingOk (addNodes uTimeOut pNode uDistance queued found l).1 := by
  have htold : PendingOk (l.tell (HistoryCall.addNodes (found.entries.map Prod.snd) pNode)) :=
    h.of_eq rfl rfl
  exact htold.countCloser _ _ _ _ _ _

end

/-- The response of a node meets its condition: there was an open request to the node, or it
was stalled, or no request is open. -/
def ResponseMeets (l : CKadRelay) (pNode : ℕ) : Prop :=
  ∀ s, l.nodes.get pNode = some s → s.own.pending = true ∨ s.uTimeOut = some 0 ∨ l.own.pendingRelays = 0

/-- A response to an open request. -/
theorem PendingOk.response (h : PendingOk l) {pNode : ℕ}
    (hs : l.nodes.get pNode = some s) (hmeets : ResponseMeets l pNode) (error : String) :
    PendingOk ((countResponse s.uTimeOut l).modifyNode pNode fun s =>
      setError error (setPending false s.answered)) := by
  refine h.modify (f := fun s => setError error (setPending false s.answered)) hs
    (fun hpending => absurd hpending Bool.false_ne_true) ?_ ?_
  · unfold countResponse
    split_ifs <;> rfl
  · have hafter : pendingWeight (setError error (setPending false s.answered)) = 0 :=
      if_neg Bool.false_ne_true
    rw [hafter]
    unfold countResponse
    by_cases hpending : s.own.pending = true
    · obtain ⟨-, t, ht, hne⟩ := h.nodes pNode s hs hpending
      have hone := h.one_le hs hpending
      have hzero : s.uTimeOut ≠ some 0 := fun h0 => hne (Option.some.inj (ht.symm.trans h0))
      have hweight : pendingWeight s = 1 := if_pos hpending
      rw [if_pos ⟨hzero, by omega⟩, hweight]
      rfl
    · have hweight : pendingWeight s = 0 := if_neg hpending
      have hkeep : ¬(s.uTimeOut ≠ some 0 ∧ 0 < l.own.pendingRelays) := by
        rintro ⟨hne, hpos⟩
        rcases hmeets s hs with hp | hzero | hnone
        exacts [hpending hp, hne hzero, by omega]
      rw [if_neg hkeep, hweight]
      simp [CKadLookup.modifyNode]

theorem PendingOk.upLinkResponse (h : PendingOk l) {pNode : ℕ} (hmeets : ResponseMeets l pNode)
    (error : String) : PendingOk (upLinkResponse pNode error l) := by
  unfold KadRelay.upLinkResponse
  cases hs : l.nodes.get pNode with
  | none => exact h
  | some s =>
    dsimp only
    have hresponse := h.response hs hmeets error
    split_ifs
    · exact hresponse
    · refine ⟨?_, fun k s' hs' => ?_⟩
      · refine hresponse.count.trans ?_
        unfold pendingCount addUpLink CKadLookup.tell CKadLookup.modifyNode
        dsimp only
        rw [total_erase, get_modify_self]
        cases (countResponse s.uTimeOut l).nodes.get pNode <;> simp [pendingWeight, setError,
          setPending, SNodeStatus.setOwn]
      · unfold addUpLink CKadLookup.tell at hs'
        dsimp only at hs'
        by_cases hk : k = pNode
        · rw [hk, get_erase_self] at hs'
          exact absurd hs' (Option.some_ne_none s').symm
        · rw [get_erase_of_ne _ hk] at hs'
          exact hresponse.nodes k s' hs'

theorem PendingOk.disconnect (h : PendingOk l) (pNode : ℕ) : PendingOk (disconnect pNode l) := by
  refine h.modify_same (k := pNode) (f := SNodeStatus.disconnect) ?_ rfl rfl
  intro s hs
  refine ⟨rfl, fun hpending => ⟨?_, (h.nodes pNode s hs hpending).2⟩⟩
  simpa [SNodeStatus.disconnect] using (h.nodes pNode s hs hpending).1

end Relay

end NeoLoader.PendingRelays
