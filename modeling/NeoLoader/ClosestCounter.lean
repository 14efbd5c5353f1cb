import NeoLoader.KadRelay

/-!
# The number of closest nodes

The number of closest nodes that a lookup keeps, against the nodes with a channel that know
no closer one.
-/

namespace NeoLoader.ClosestCounter

open KeyMap KeyMap.OrderedMap KadLookup KadRelay

section Closest

variable {σ ρ : Type} (v : Overrides σ ρ) {l : CKadLookup σ ρ}

/-- A node with a channel that knows no closer node. -/
def isClosest (s : SNodeStatus σ) : Bool :=
  s.pChannel.isSome && s.lookupState = ELookupState.eLookupClosest

/-- A node counts if it is a closest one. -/
def closestWeight (s : SNodeStatus σ) : ℤ := if isClosest s then 1 else 0

/-- Number of closest nodes with a channel. -/
def closestCount (l : CKadLookup σ ρ) : ℤ := l.nodes.total fun _ s => closestWeight s

/-- By how much `m_ClosestNodes` is too high. -/
def closestExcess (l : CKadLookup σ ρ) : ℤ := l.closestNodes - closestCount l

theorem closestCount_nonneg (l : CKadLookup σ ρ) : 0 ≤ closestCount l := by
  refine total_nonneg fun k s _ => ?_
  unfold closestWeight
  split_ifs <;> simp

theorem closestExcess_modify (l : CKadLookup σ ρ) (k : ℕ) (f : SNodeStatus σ → SNodeStatus σ) :
    closestExcess (l.modifyNode k f) =
      closestExcess l - (l.nodes.get k).elim 0 fun s => closestWeight (f s) - closestWeight s := by
  unfold closestExcess closestCount CKadLookup.modifyNode
  rw [total_modify]
  ring

variable {k : ℕ}

theorem closestExcess_modify_same {f : SNodeStatus σ → SNodeStatus σ}
    (h : ∀ s, l.nodes.get k = some s → isClosest (f s) = isClosest s) :
    closestExcess (l.modifyNode k f) = closestExcess l := by
  rw [closestExcess_modify]
  cases hs : l.nodes.get k with
  | none => simp
  | some s => simp [closestWeight, h s hs]

@[simp] theorem closestExcess_addClosest (l : CKadLookup σ ρ) (n : ℤ) :
    closestExcess (l.addClosest n) = closestExcess l + n := by
  unfold closestExcess closestCount CKadLookup.addClosest
  ring

@[simp] theorem closestExcess_tell (l : CKadLookup σ ρ) (call : HistoryCall) :
    closestExcess (l.tell call) = closestExcess l := rfl

@[simp] theorem closestExcess_fail (l : CKadLookup σ ρ) (k : ℕ) : closestExcess (l.fail k) = closestExcess l := rfl

@[simp] theorem closestExcess_setState (l : CKadLookup σ ρ) (state : ELookupState) :
    closestExcess (l.setState state) = closestExcess l := rfl

@[simp] theorem closestExcess_stallLookup (uTimeOut : Option ℕ) (l : CKadLookup σ ρ) :
    closestExcess (stallLookup v uTimeOut l) = closestExcess l := by
  unfold stallLookup
  split_ifs <;> rfl

variable {s : SNodeStatus σ}

/-- A lost channel of a closest node is counted. -/
theorem closestExcess_loseChannel (hs : l.nodes.get k = some s) (hchannel : s.pChannel.isSome) :
    closestExcess (loseChannel v k s l) = closestExcess l := by
  have hmodify : closestExcess (l.modifyNode k (loseStatus v)) = closestExcess l + closestWeight s := by
    rw [closestExcess_modify, hs]
    simp [closestWeight, isClosest, loseStatus]
  unfold loseChannel loseClosest
  split_ifs with hstate
  · simp [hmodify, closestWeight, isClosest, hchannel, hstate]
  · simp [hmodify, closestWeight, isClosest, hstate]

/-- A look at a node keeps the excess. -/
theorem closestExcess_checkChannel {uNow k : ℕ} (hs : l.nodes.get k = some s) :
    closestExcess (checkChannel v uNow k s l) = closestExcess l := by
  unfold checkChannel
  split
  · rfl
  · next hchannel => exact closestExcess_loseChannel v hs (by rw [hchannel]; rfl)
  · split_ifs
    · unfold passTime
      rw [closestExcess_stallLookup]
      exact closestExcess_modify_same fun s _ => rfl
    · rfl

/-- The first loop keeps the excess. -/
theorem closestExcess_checkNodes (uNow : ℕ) (keys : List ℕ) (acc : CKadLookup σ ρ × ℤ) :
    closestExcess (checkNodes v uNow keys acc).1 = closestExcess acc.1 := by
  induction keys generalizing acc with
  | nil => rfl
  | cons k rest ih =>
    rw [checkNodes]
    split
    · exact ih _
    · next s hs =>
      rw [ih]
      exact closestExcess_checkChannel v hs

/-- The status of a node after a channel to it was asked for. -/
theorem get_getChannel (k : ℕ) (prepared : Bool) (l : CKadLookup σ ρ) :
    ∃ s, (getChannel v k prepared l).nodes.get k = some s ∧
      s.lookupState = ((l.nodes.get k).getD (newStatus v)).lookupState ∧
      s.uTimeOut = ((l.nodes.get k).getD (newStatus v)).uTimeOut ∧
      s.own = ((l.nodes.get k).getD (newStatus v)).own := by
  unfold getChannel
  cases hs : l.nodes.get k with
  | none =>
    refine ⟨_, get_insert_self _ _ _, ?_⟩
    split_ifs <;> exact ⟨rfl, rfl, rfl⟩
  | some s =>
    dsimp only
    split_ifs
    · refine ⟨s.reopen, ?_, rfl, rfl, rfl⟩
      unfold CKadLookup.modifyNode
      rw [get_modify_self, hs]
      rfl
    · exact ⟨s, hs, rfl, rfl, rfl⟩

/-- A channel is asked for a node that is not taken for a closest one. -/
theorem closestExcess_getChannel {prepared : Bool} (h : ∀ s, l.nodes.get k = some s → s.pChannel = none →
      s.lookupState ≠ ELookupState.eLookupClosest) :
    closestExcess (getChannel v k prepared l) = closestExcess l := by
  unfold getChannel
  cases hs : l.nodes.get k with
  | none =>
    unfold closestExcess closestCount
    dsimp only
    rw [total_insert, hs]
    cases prepared <;> simp [closestWeight, isClosest, newStatus, SNodeStatus.reopen]
  | some s =>
    dsimp only
    split_ifs with hopen
    · simp only [Bool.and_eq_true, decide_eq_true_eq] at hopen
      refine closestExcess_modify_same fun s' hs' => ?_
      rw [hs, Option.some.injEq] at hs'
      subst hs'
      simp [isClosest, SNodeStatus.reopen, hopen.1, h s hs hopen.1]
    · rfl

/-- A node that is no closest one is asked. -/
theorem closestExcess_requestNodes (uTimeOut : ℕ) (channel queued : Bool) (byID : Option ℕ)
    (h : ∀ s, l.nodes.get k = some s → s.lookupState ≠ ELookupState.eLookupClosest) :
    closestExcess (requestNodes uTimeOut k channel queued byID l).1 = closestExcess l := by
  unfold requestNodes
  cases hs : l.nodes.get k with
  | none => rfl
  | some s =>
    dsimp only
    split_ifs
    · unfold KadLookup.await
      rw [closestExcess_tell]
      refine closestExcess_modify_same fun s' hs' => ?_
      simp [isClosest, SNodeStatus.setState, SNodeStatus.await, h s' hs']
    · rfl

theorem state_of_not_used (h : wasNodeUsed l k = false)
    (hs : l.nodes.get k = some s) : s.lookupState = ELookupState.eNoLookup := by
  unfold wasNodeUsed at h
  rw [hs] at h
  simpa using h

theorem closestExcess_askNode {uTimeOut : ℕ} {c : Candidate} (h : wasNodeUsed l c.pNode = false) :
    closestExcess (askNode v uTimeOut c l).1 = closestExcess l := by
  have hchannel : closestExcess (getChannel v c.pNode c.prepared l) = closestExcess l := by
    refine closestExcess_getChannel v fun s hs _ => ?_
    rw [state_of_not_used h hs]
    exact ELookupState.noConfusion
  obtain ⟨s, hs, hstate, -⟩ := get_getChannel v c.pNode c.prepared l
  have hno : s.lookupState = ELookupState.eNoLookup := by
    rw [hstate]
    cases hget : l.nodes.get c.pNode with
    | none => rfl
    | some s' => exact state_of_not_used h hget
  have hrequest := closestExcess_requestNodes uTimeOut
    (hasChannel (getChannel v c.pNode c.prepared l) c.pNode) c.queued none fun s' hs' => by
      rw [hs, Option.some.injEq] at hs'
      rw [← hs', hno]
      exact ELookupState.noConfusion
  unfold askNode
  dsimp only
  split
  · next heq =>
    rw [heq] at hrequest
    exact hrequest.trans hchannel
  · next heq =>
    rw [heq] at hrequest
    exact hrequest.trans hchannel

/-- The second loop keeps the excess. -/
theorem closestExcess_askNodes (uTimeOut : ℕ) (candidates : List Candidate) (ask : ℤ) (acc : CKadLookup σ ρ × ℤ) :
    closestExcess (askNodes v uTimeOut candidates ask acc).1 = closestExcess acc.1 := by
  induction candidates generalizing ask acc with
  | nil => rfl
  | cons c rest ih =>
    obtain ⟨l, active⟩ := acc
    rw [askNodes]
    split_ifs with hask hused
    · rfl
    · exact ih _ _
    · have hone : closestExcess (askNode v uTimeOut c l).1 = closestExcess l :=
        closestExcess_askNode v (Bool.eq_false_iff.mpr hused)
      split
      · next heq =>
        rw [ih]
        rw [heq] at hone
        exact hone
      · next heq =>
        rw [ih]
        rw [heq] at hone
        exact hone

theorem closestExcess_processLookup (requestTimeOut uNow : ℕ) (candidates : List Candidate) (l : CKadLookup σ ρ) :
    closestExcess (processLookup v requestTimeOut uNow candidates l) = closestExcess l := by
  unfold processLookup lookForNodes
  dsimp only
  split_ifs
  · rw [closestExcess_setState, closestExcess_askNodes, closestExcess_checkNodes]
  · rw [closestExcess_askNodes, closestExcess_checkNodes]
  · rw [closestExcess_checkNodes]

/-- A node that answers has a channel, and is not taken for a closest one if it answers
with closer nodes. -/
def AnswerMeets (pNode closerCount : ℕ) (l : CKadLookup σ ρ) : Prop :=
  ∀ s, l.nodes.get pNode = some s → s.pChannel.isSome = true ∧
    (0 < closerCount → s.lookupState ≠ ELookupState.eLookupClosest)

/-- An answer keeps the excess. -/
theorem closestExcess_onCloserNodes {pNode closerCount : ℕ} (h : AnswerMeets pNode closerCount l) :
    closestExcess (onCloserNodes pNode closerCount l).1 = closestExcess l := by
  unfold onCloserNodes CKadLookup.tell
  dsimp only
  cases hs : l.nodes.get pNode with
  | none => rfl
  | some s =>
    have hs' : (l.tell (HistoryCall.registerNodes pNode closerCount)).nodes.get pNode = some s := hs
    obtain ⟨hchannel, hcloser⟩ := h s hs
    change closestExcess (closerNodes pNode closerCount s (l.tell _)) = _
    unfold closerNodes
    split_ifs with hcount hstate
    · refine (closestExcess_modify_same fun s' hget => ?_).trans (closestExcess_tell _ _)
      rw [hs', Option.some.injEq] at hget
      subst hget
      simp [isClosest, SNodeStatus.setState, SNodeStatus.answered, hcloser hcount]
    · exact (closestExcess_modify_same (f := SNodeStatus.answered) fun _ _ => rfl).trans (closestExcess_tell _ _)
    · rw [closestExcess_addClosest, closestExcess_modify, hs', closestExcess_tell]
      simp [closestWeight, isClosest, SNodeStatus.setState, SNodeStatus.answered, hstate, hchannel]

/-- The loop over named nodes keeps the excess. -/
theorem closestExcess_countCloser (uTimeOut pNode uDistance : ℕ) (queued : ℕ → Bool)
    (found : List (ℕ × ℕ)) (count : ℕ) (l : CKadLookup σ ρ) :
    closestExcess (countCloser uTimeOut pNode uDistance queued found count l).1 =
      closestExcess l := by
  induction found generalizing count l with
  | nil => rfl
  | cons e rest ih =>
    obtain ⟨distance, node⟩ := e
    rw [countCloser]
    split_ifs with hfar hused hcount
    · exact ih _ _
    · exact ih _ _
    · exact ih _ _
    · have hone : closestExcess (requestNodes uTimeOut node true (queued node) (some pNode) l).1 = closestExcess l := by
        refine closestExcess_requestNodes _ _ _ _ fun s hs => ?_
        rw [state_of_not_used (Bool.eq_false_iff.mpr hused) hs]
        exact ELookupState.noConfusion
      split
      · next heq =>
        rw [ih]
        rw [heq] at hone
        exact hone
      · next heq =>
        rw [ih]
        rw [heq] at hone
        exact hone

theorem closestExcess_addNodes (uTimeOut pNode uDistance : ℕ) (queued : ℕ → Bool)
    (found : OrderedMap ℕ ℕ) (l : CKadLookup σ ρ) :
    closestExcess (addNodes uTimeOut pNode uDistance queued found l).1 = closestExcess l := by
  unfold addNodes
  rw [closestExcess_countCloser, closestExcess_tell]

theorem closestExcess_disconnect (pNode : ℕ) (l : CKadLookup σ ρ) :
    closestExcess (disconnect pNode l) = closestExcess l := by
  refine closestExcess_modify_same fun s _ => ?_
  unfold isClosest SNodeStatus.disconnect
  cases s.pChannel <;> rfl

theorem closestExcess_initOperation (l : CKadLookup σ ρ) : closestExcess (initOperation l) = closestExcess l := by
  unfold initOperation
  split_ifs <;> rfl

end Closest

section Relay

variable {p : KadRelay.Settings} {l : CKadRelay}

/-- No node of these is taken for a closest one without a channel. -/
def NoneStale (l : CKadRelay) (relays : List Candidate) : Prop :=
  ∀ c ∈ relays, ∀ s, l.nodes.get c.pNode = some s → s.pChannel = none → s.lookupState ≠ ELookupState.eLookupClosest

theorem closestExcess_requestUpLink (uTimeOut pNode : ℕ) (channel queued : Bool) (l : CKadRelay) :
    closestExcess (requestUpLink uTimeOut pNode channel queued l).1 = closestExcess l := by
  unfold requestUpLink
  split
  · rfl
  · split_ifs
    · have hsame : closestExcess (l.modifyNode pNode fun s => setPending true (s.await uTimeOut)) =
          closestExcess l := closestExcess_modify_same fun _ _ => rfl
      exact hsame
    · rfl

/-- A node with a channel keeps it when it is asked for an up link. -/
theorem stale_of_requestUpLink {uTimeOut pNode k : ℕ} {channel queued : Bool} {s : SNodeStatus SRelayState}
    (h : (requestUpLink uTimeOut pNode channel queued l).1.nodes.get k = some s) :
    ∃ s', l.nodes.get k = some s' ∧ s.pChannel = s'.pChannel ∧ s.lookupState = s'.lookupState := by
  unfold requestUpLink at h
  split at h
  · exact ⟨s, h, rfl, rfl⟩
  · split_ifs at h
    · have hget : (l.nodes.modify pNode fun s => setPending true (s.await uTimeOut)).get k =
          some s := h
      by_cases hk : k = pNode
      · rw [hk, get_modify_self] at hget
        obtain ⟨s', hs', rfl⟩ := Option.map_eq_some_iff.mp hget
        exact ⟨s', hk ▸ hs', rfl, rfl⟩
      · rw [get_modify_of_ne _ _ hk] at hget
        exact ⟨s, hget, rfl, rfl⟩
    · exact ⟨s, h, rfl, rfl⟩

/-- A closest node without a channel was one before a channel was asked for. -/
theorem stale_of_getChannel {k k' : ℕ} {prepared : Bool} {s : SNodeStatus SRelayState}
    (h : (getChannel (overrides p) k prepared l).nodes.get k' = some s) (hchannel : s.pChannel = none)
    (hstate : s.lookupState = ELookupState.eLookupClosest) :
    ∃ s', l.nodes.get k' = some s' ∧ s'.pChannel = none ∧ s'.lookupState = ELookupState.eLookupClosest := by
  unfold getChannel at h
  cases hs : l.nodes.get k with
  | none =>
    rw [hs] at h
    dsimp only at h
    by_cases hk : k' = k
    · rw [hk, get_insert_self] at h
      cases prepared <;>
        · simp only [Option.some.injEq] at h
          rw [← h] at hstate
          exact absurd hstate ELookupState.noConfusion
    · rw [get_insert_of_ne _ _ hk] at h
      exact ⟨s, h, hchannel, hstate⟩
  | some s₀ =>
    rw [hs] at h
    dsimp only at h
    split_ifs at h
    · unfold CKadLookup.modifyNode at h
      by_cases hk : k' = k
      · rw [hk, get_modify_self, hs] at h
        simp only [Option.map_some, Option.some.injEq] at h
        rw [← h] at hchannel
        exact absurd hchannel (Option.some_ne_none _)
      · rw [get_modify_of_ne _ _ hk] at h
        exact ⟨s, h, hchannel, hstate⟩
    · exact ⟨s, h, hchannel, hstate⟩

theorem NoneStale.askRelay {relays : List Candidate} (h : NoneStale l relays) (uNow : ℕ)
    (c : Candidate) : NoneStale (askRelay p uNow c l).1 relays := by
  intro c' hc' s hs hchannel hstate
  obtain ⟨s₁, hs₁, hchannel₁, hstate₁⟩ := stale_of_requestUpLink hs
  obtain ⟨s₂, hs₂, hchannel₂, hstate₂⟩ :=
    stale_of_getChannel hs₁ (hchannel₁ ▸ hchannel) (hstate₁ ▸ hstate)
  exact h c' hc' s₂ hs₂ hchannel₂ hstate₂

/-- The loop for up links keeps the excess. -/
theorem closestExcess_askRelays (uNow : ℕ) {relays : List Candidate} (ask : ℤ) (h : NoneStale l relays) :
    closestExcess (askRelays p uNow relays ask l) = closestExcess l := by
  induction relays generalizing ask l with
  | nil => rfl
  | cons c rest ih =>
    have hrest : NoneStale l rest := fun c' hc' => h c' (List.mem_cons_of_mem _ hc')
    rw [askRelays]
    split_ifs with hask hfar hused
    · rfl
    · rfl
    · exact ih _ hrest
    · have hone : closestExcess (askRelay p uNow c l).1 = closestExcess l :=
        (closestExcess_requestUpLink _ _ _ _ _).trans (closestExcess_getChannel _ (h c List.mem_cons_self))
      have hnext : NoneStale (askRelay p uNow c l).1 rest := hrest.askRelay uNow c
      split
      · next heq =>
        rw [heq] at hone hnext
        rw [ih _ hnext]
        exact hone
      · next heq =>
        rw [heq] at hone hnext
        rw [ih _ hnext]
        exact hone

theorem closestExcess_reset (uNow : ℕ) (l : CKadRelay) : closestExcess (reset p uNow l) = closestExcess l := by
  unfold reset resetNodes
  split_ifs
  · rw [closestExcess_initOperation]
    unfold closestExcess closestCount
    rw [total_filter fun k s _ hs => ?_]
    simp [closestWeight, isClosest, hs]
  · rfl

/-- No node with a channel is a closest one. -/
def NoneClosest (l : CKadRelay) : Prop := ∀ k s, l.nodes.get k = some s → isClosest s = false

/-- The channels that are not needed are closed, none of them of a closest node. -/
theorem closestExcess_closeUnneeded (h : l.own.pendingRelays = 0 → NoneClosest l) :
    closestExcess (closeUnneeded l) = closestExcess l := by
  unfold closeUnneeded
  split_ifs with hpending
  · unfold closestExcess closestCount
    dsimp only
    rw [total_mapEntries fun k s hs => ?_]
    have hnone : closestWeight s = 0 := if_neg (by simp [h hpending k s hs])
    rw [hnone]
    rfl
  · rfl

/-- A response keeps the excess, unless it takes a closest node out of the lookup. -/
theorem closestExcess_upLinkResponse {pNode : ℕ} {error : String}
    (h : error = "" → ∀ s, l.nodes.get pNode = some s → isClosest s = false) :
    closestExcess (upLinkResponse pNode error l) = closestExcess l := by
  unfold upLinkResponse
  cases hs : l.nodes.get pNode with
  | none => rfl
  | some s =>
    dsimp only
    have hcount : ∀ f : SNodeStatus SRelayState → SNodeStatus SRelayState, (∀ s, isClosest (f s) = isClosest s) →
        closestExcess ((countResponse s.uTimeOut l).modifyNode pNode f) = closestExcess l := by
      intro f hf
      refine (closestExcess_modify_same fun s _ => hf s).trans ?_
      unfold countResponse
      split_ifs <;> rfl
    split_ifs with herror
    · exact hcount _ fun _ => rfl
    · rw [← hcount (fun s => setError error (setPending false s.answered)) fun _ => rfl]
      unfold addUpLink
      rw [closestExcess_tell]
      unfold closestExcess closestCount
      dsimp only
      rw [total_erase]
      have hget : ((countResponse s.uTimeOut l).modifyNode pNode fun s =>
          setError error (setPending false s.answered)).nodes.get pNode =
            some (setError error (setPending false s.answered)) := by
        unfold countResponse CKadLookup.modifyNode
        split_ifs <;> simp [addPending, hs]
      have hnone : isClosest (setError error (setPending false s.answered)) = false :=
        h (not_not.mp herror) s hs
      rw [hget]
      simp [closestWeight, hnone]

end Relay

end NeoLoader.ClosestCounter
