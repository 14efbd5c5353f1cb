import NeoLoader.LookupInvariants
import NeoLoader.OperationResults

/-!
# The spread share of an operation

The shares of all nodes together with the own one stay within the spread share that was
given, as long as no share is handed out that was not looked whether it is free: to a node
that a script adds, or to a closest node that is asked for its own answer.
-/

namespace NeoLoader.SpreadShares

open KeyMap KeyMap.OrderedMap KadLookup KadOperation OperationResults LookupInvariants

section Invariant

/-- A node has no share or at least one, and a node with shares has a channel and is in use. -/
structure NodeOk (s : SNodeStatus SOpProgress) : Prop where
  /-- The number of shares. -/
  shares : s.own.shares = 0 ∨ 1 ≤ s.own.shares
  /-- A node with shares. -/
  holder : s.own.shares ≠ 0 → s.own.opState ≠ EOpState.eNoOp ∧
    s.own.opState ≠ EOpState.eOpFailed ∧ s.pChannel.isSome = true

/-- The spread share that is given, which is the spread count for a task. -/
def givenShare (spreadCount spreadShare : ℤ) : ℤ :=
  if spreadShare = 0 then spreadCount else spreadShare

/-- The spread share an operation has once it is started. -/
def shareLimit (o : SOperation) : ℤ := givenShare o.spreadCount o.spreadShare

/-- What the shares depend on beside the nodes. -/
def shareView (o : SOperation) : ℤ × Bool × List ℤ :=
  (shareLimit o, o.inRange, o.trace.handed)

/-- The shares are within the spread share. -/
structure SharesOk (g : ℤ) (l : CKadOperation) : Prop where
  /-- The shares of all nodes, and the own one. -/
  used : allShares l ≤ shareLimit l.own
  /-- The spread share is not more than was given. -/
  given : shareLimit l.own ≤ g
  /-- The nodes. -/
  nodes : ∀ k s, l.nodes.get k = some s → NodeOk s
  /-- The shares that were handed to nodes. -/
  handed : ∀ n ∈ l.own.trace.handed, 1 ≤ n

variable {p : KadOperation.Settings} {l l' : CKadOperation} {g : ℤ}

theorem allShares_eq (hnodes : l'.nodes = l.nodes) (hown : l'.own.inRange = l.own.inRange) :
    allShares l' = allShares l := by
  unfold allShares ownShare
  rw [hnodes, hown]

theorem shareView_eq {o o' : SOperation} (h : shareView o' = shareView o) :
    shareLimit o' = shareLimit o ∧ o'.inRange = o.inRange ∧ o'.trace.handed = o.trace.handed := by
  simpa only [shareView, Prod.mk.injEq] using h

theorem SharesOk.of_own (h : SharesOk g l) (hnodes : l'.nodes = l.nodes)
    (hown : shareView l'.own = shareView l.own) : SharesOk g l' := by
  obtain ⟨hshare, hrange, hhanded⟩ := shareView_eq hown
  refine ⟨?_, ?_, ?_, ?_⟩
  · rw [allShares_eq hnodes hrange, hshare]
    exact h.used
  · rw [hshare]
    exact h.given
  · rw [hnodes]
    exact h.nodes
  · rw [hhanded]
    exact h.handed

variable {f : SNodeStatus SOpProgress → SNodeStatus SOpProgress} {k : ℕ}

theorem allShares_modify (hnodes : l'.nodes = l.nodes.modify k f) (hown : l'.own.inRange = l.own.inRange) :
    allShares l' = allShares l + (l.nodes.get k).elim 0 fun s => (f s).own.shares - s.own.shares := by
  unfold allShares ownShare
  rw [hnodes, hown, total_modify]
  ring

theorem allShares_modifyNode (l : CKadOperation) (k : ℕ) (f : SNodeStatus SOpProgress → SNodeStatus SOpProgress) :
    allShares (l.modifyNode k f) = allShares l + (l.nodes.get k).elim 0 fun s => (f s).own.shares - s.own.shares :=
  allShares_modify rfl rfl

/-- Another value for a node, with no more shares. -/
theorem SharesOk.modify (h : SharesOk g l)
    (hf : ∀ s, l.nodes.get k = some s → NodeOk s → NodeOk (f s) ∧ (f s).own.shares ≤ s.own.shares)
    (hnodes : l'.nodes = l.nodes.modify k f) (hown : shareView l'.own = shareView l.own) : SharesOk g l' := by
  obtain ⟨hshare, hrange, hhanded⟩ := shareView_eq hown
  refine ⟨?_, ?_, ?_, ?_⟩
  · have hused := h.used
    rw [allShares_modify hnodes hrange, hshare]
    cases hs : l.nodes.get k with
    | none => simpa using hused
    | some s =>
      have hle := (hf s hs (h.nodes k s hs)).2
      rw [Option.elim_some]
      omega
  · rw [hshare]
    exact h.given
  · intro k' s' hs'
    rw [hnodes] at hs'
    by_cases hk : k' = k
    · rw [hk, get_modify_self] at hs'
      obtain ⟨s, hs, rfl⟩ := Option.map_eq_some_iff.mp hs'
      exact (hf s hs (h.nodes k s hs)).1
    · rw [get_modify_of_ne _ _ hk] at hs'
      exact h.nodes k' s' hs'
  · rw [hhanded]
    exact h.handed

variable {s : SNodeStatus SOpProgress}

theorem NodeOk.drop (h : s.own.shares = 0) : NodeOk s :=
  ⟨Or.inl h, fun hne => absurd h hne⟩

/-- A node that keeps its shares, its use and its channel. -/
theorem NodeOk.same {s s' : SNodeStatus SOpProgress} (h : NodeOk s)
    (hshares : s'.own.shares = s.own.shares) (hstate : s'.own.opState = s.own.opState)
    (hchannel : s.pChannel.isSome = true → s'.pChannel.isSome = true) : NodeOk s' where
  shares := by
    rw [hshares]
    exact h.shares
  holder := by
    rw [hshares, hstate]
    intro hne
    obtain ⟨hop, hfailed, hsome⟩ := h.holder hne
    exact ⟨hop, hfailed, hchannel hsome⟩

theorem SharesOk.modify_same (h : SharesOk g l)
    (hf : ∀ s, (f s).own.shares = s.own.shares ∧ (f s).own.opState = s.own.opState ∧
      (s.pChannel.isSome = true → (f s).pChannel.isSome = true))
    (hnodes : l'.nodes = l.nodes.modify k f) (hown : shareView l'.own = shareView l.own) : SharesOk g l' := by
  refine h.modify (fun s _ hok => ?_) hnodes hown
  obtain ⟨hshares, hstate, hchannel⟩ := hf s
  exact ⟨hok.same hshares hstate hchannel, hshares.le⟩

theorem NodeOk.nonneg (h : NodeOk s) : 0 ≤ s.own.shares := by
  rcases h.shares with hzero | hone <;> omega

theorem SharesOk.modify_drop (h : SharesOk g l) (hf : ∀ s, (f s).own.shares = 0)
    (hnodes : l'.nodes = l.nodes.modify k f) (hown : shareView l'.own = shareView l.own) : SharesOk g l' := by
  refine h.modify (fun s _ hok => ⟨NodeOk.drop (hf s), ?_⟩) hnodes hown
  rw [hf s]
  exact hok.nonneg

/-- A channel is asked for. -/
theorem allShares_getChannel (k : ℕ) (prepared : Bool) (l : CKadOperation) :
    allShares (getChannel (overrides p) k prepared l) = allShares l := by
  unfold getChannel
  cases hs : l.nodes.get k with
  | none =>
    unfold allShares
    dsimp only
    rw [total_insert, hs]
    cases prepared <;> simp [newStatus, SNodeStatus.reopen, overrides]
  | some s =>
    dsimp only
    split_ifs
    · rw [allShares_modifyNode, hs]
      simp [SNodeStatus.reopen]
    · rfl

theorem own_getChannel (k : ℕ) (prepared : Bool) (l : CKadOperation) :
    (getChannel (overrides p) k prepared l).own = l.own := by
  unfold getChannel
  split
  · rfl
  · split_ifs <;> rfl

/-- A channel is asked for. -/
theorem SharesOk.getChannel (h : SharesOk g l) (k : ℕ) (prepared : Bool) :
    SharesOk g (getChannel (overrides p) k prepared l) := by
  refine ⟨?_, ?_, ?_, ?_⟩
  · rw [allShares_getChannel, own_getChannel]
    exact h.used
  · rw [own_getChannel]
    exact h.given
  · intro k' s' hs'
    unfold KadLookup.getChannel at hs'
    cases hs : l.nodes.get k with
    | none =>
      rw [hs] at hs'
      dsimp only at hs'
      by_cases hk : k' = k
      · rw [hk, get_insert_self] at hs'
        cases prepared <;> cases hs' <;> exact NodeOk.drop rfl
      · rw [get_insert_of_ne _ _ hk] at hs'
        exact h.nodes k' s' hs'
    | some s =>
      rw [hs] at hs'
      dsimp only at hs'
      split_ifs at hs'
      · unfold CKadLookup.modifyNode at hs'
        by_cases hk : k' = k
        · rw [hk, get_modify_self, hs] at hs'
          cases hs'
          exact (h.nodes k s hs).same rfl rfl fun _ => rfl
        · rw [get_modify_of_ne _ _ hk] at hs'
          exact h.nodes k' s' hs'
      · exact h.nodes k' s' hs'
  · rw [own_getChannel]
    exact h.handed

/-- The moves of the lookup keep the shares. -/
theorem keeps_sharesOk (p : KadOperation.Settings) (g : ℤ) : Keeps (overrides p) (SharesOk g) where
  frame := fun l l' hnodes hown h => h.of_own hnodes (by rw [hown])
  channel := fun l k prepared h => h.getChannel k prepared
  status := fun l k f hf h => h.modify_same
    (fun s => ⟨by rw [(hf s).1], by rw [(hf s).1], fun hsome => by rw [(hf s).2, hsome]⟩) rfl rfl
  lose := by
    intro l k s hs h
    refine h.modify_drop (k := k) (f := loseStatus (overrides p)) (fun _ => rfl) ?_ ?_
    · unfold stallLookup
      split_ifs <;> rfl
    · unfold stallLookup
      split_ifs <;> rfl
  pass := by
    intro l k s hs h
    have hpass : SharesOk g (l.modifyNode k (passStatus (overrides p))) := by
      refine h.modify (fun s _ hok => ?_) rfl rfl
      unfold passStatus stallOwn
      split_ifs
      · exact ⟨hok.same rfl rfl id, le_rfl⟩
      · exact ⟨NodeOk.drop rfl, hok.nonneg⟩
    refine hpass.of_own ?_ ?_
    · unfold stallLookup
      split_ifs <;> rfl
    · unfold stallLookup
      split_ifs <;> rfl

theorem shares_of_untried (h : SharesOk g l) (huntried : isUntried l k = true) :
    ∃ s, l.nodes.get k = some s ∧ s.own.shares = 0 ∧ s.pChannel.isSome = true := by
  unfold isUntried at huntried
  split at huntried
  · exact absurd huntried Bool.false_ne_true
  · next s hs =>
    simp only [Bool.and_eq_true, decide_eq_true_eq] at huntried
    refine ⟨s, hs, ?_, huntried.1⟩
    by_contra hne
    exact ((h.nodes k s hs).holder hne).1 huntried.2

/-- A share is handed to a node that had none. -/
theorem SharesOk.hand (h : SharesOk g l) {n : ℤ}
    {f : SOpProgress → SOpProgress} (hs : l.nodes.get k = some s) (hzero : s.own.shares = 0)
    (hchannel : s.pChannel.isSome = true) (hf : ∀ progress, (f progress).shares = progress.shares ∧
      (f progress).opState ≠ EOpState.eNoOp ∧ (f progress).opState ≠ EOpState.eOpFailed)
    (hone : 1 ≤ n) (hfree : allShares l + n ≤ shareLimit l.own) : SharesOk g (hand k n f l) := by
  refine ⟨?_, h.given, fun k' s' hs' => ?_, fun m hm => ?_⟩
  · have hshares : allShares (KadOperation.hand k n f l) = allShares l + n := by
      change allShares (l.modifyNode k (SNodeStatus.setOwn fun progress =>
        f { progress with shares := n })) = _
      rw [allShares_modifyNode, hs]
      simp [SNodeStatus.setOwn, (hf _).1, hzero]
    rw [hshares]
    exact hfree
  · have hget : (l.nodes.modify k (SNodeStatus.setOwn fun progress =>
        f { progress with shares := n })).get k' = some s' := hs'
    by_cases hk : k' = k
    · rw [hk, get_modify_self, hs] at hget
      cases hget
      refine ⟨Or.inr ?_, fun _ => ⟨(hf _).2.1, (hf _).2.2, hchannel⟩⟩
      exact ((hf { s.own with shares := n }).1).symm ▸ hone
    · rw [get_modify_of_ne _ _ hk] at hget
      exact h.nodes k' s' hget
  · rcases List.mem_append.mp hm with hold | hnew
    · exact h.handed m hold
    · rw [List.mem_singleton.mp hnew]
      exact hone

theorem SharesOk.requestStateless (h : SharesOk g l)
    (hs : l.nodes.get k = some s) (hzero : s.own.shares = 0) (hchannel : s.pChannel.isSome = true)
    (hfree : allShares l + 1 ≤ shareLimit l.own) : SharesOk g (requestStateless k l) :=
  h.hand hs hzero hchannel (fun _ => ⟨rfl, EOpState.noConfusion, EOpState.noConfusion⟩) le_rfl hfree

/-- A node is asked to be a proxy. -/
theorem SharesOk.requestShares (h : SharesOk g l) {n : ℤ}
    (uTimeOut : ℕ) {queued : Bool} (hs : l.nodes.get k = some s) (hzero : s.own.shares = 0)
    (hchannel : s.pChannel.isSome = true) (hfree : queued = true → 1 ≤ n ∧ allShares l + n ≤ shareLimit l.own) :
    SharesOk g (requestShares uTimeOut k n queued l) := by
  unfold KadOperation.requestShares
  split_ifs with hqueued
  · obtain ⟨hone, hle⟩ := hfree hqueued
    have hhand : SharesOk g (KadOperation.hand k n
        (fun progress => { progress with opState := EOpState.eOpPending }) l) :=
      h.hand hs hzero hchannel (fun _ => ⟨rfl, EOpState.noConfusion, EOpState.noConfusion⟩) hone hle
    have hawait : SharesOk g ((KadOperation.hand k n
        (fun progress => { progress with opState := EOpState.eOpPending }) l).modifyNode k
          (SNodeStatus.await uTimeOut)) :=
      hhand.modify_same (k := k) (f := SNodeStatus.await uTimeOut) (fun _ => ⟨rfl, rfl, id⟩) rfl rfl
    exact hawait.of_own rfl rfl
  · exact h

variable {freeShares : ℤ}

/-- The shares for a node are at least one, and not more than are free. -/
theorem splitShares_bounds (rand : ℕ) (brancheCount : ℤ) (holders : ℤ) (hfree : 0 < freeShares) :
    1 ≤ splitShares rand brancheCount freeShares holders ∧
      splitShares rand brancheCount freeShares holders ≤ freeShares := by
  unfold splitShares
  dsimp only
  split_ifs with hbranche hmax
  · omega
  · have hpos : 0 < freeShares - (brancheCount - holders - 1) - 1 := by omega
    have hnonneg := Int.emod_nonneg (rand : ℤ) hpos.ne'
    have hlt := Int.emod_lt_of_pos (rand : ℤ) hpos
    omega
  · omega

theorem SharesOk.requestProxying (h : SharesOk g l) {uTimeOut : ℕ} {c : Offer}
    (holders : ℤ) (hs : l.nodes.get c.pNode = some s)
    (hzero : s.own.shares = 0) (hchannel : s.pChannel.isSome = true) (hpos : 0 < freeShares)
    (hfree : allShares l + freeShares ≤ shareLimit l.own) :
    SharesOk g (requestProxying uTimeOut c freeShares holders l) := by
  unfold KadOperation.requestProxying
  rw [hs]
  dsimp only
  split_ifs
  · exact h
  · obtain ⟨hone, hle⟩ := splitShares_bounds c.rand l.own.brancheCount holders hpos
    exact h.requestShares _ hs hzero hchannel fun _ => ⟨hone, by omega⟩

theorem SharesOk.offerShares (h : SharesOk g l) {uTimeOut : ℕ} {c : Offer}
    (holders : ℤ) (huntried : isUntried l c.pNode = true) (hpos : 0 < freeShares)
    (hfree : allShares l + freeShares ≤ shareLimit l.own) :
    SharesOk g (offerShares uTimeOut c freeShares holders l) := by
  obtain ⟨s, hs, hzero, hchannel⟩ := shares_of_untried h huntried
  unfold KadOperation.offerShares
  split_ifs
  · exact h.requestProxying holders hs hzero hchannel hpos hfree
  · exact h.requestStateless hs hzero hchannel (by omega)

/-- The shares of a node that is given some. -/
theorem allShares_hand {n : ℤ} {f : SOpProgress → SOpProgress} (hs : l.nodes.get k = some s) (hzero : s.own.shares = 0)
    (hf : ∀ progress, (f progress).shares = progress.shares) :
    allShares (hand k n f l) = allShares l + n ∧ sharesOf (hand k n f l) k = n := by
  have hget : (hand k n f l).nodes.get k = some (s.setOwn fun progress => f { progress with shares := n }) := by
    change (l.nodes.modify k _).get k = _
    rw [get_modify_self, hs]
    rfl
  constructor
  · change allShares (l.modifyNode k (SNodeStatus.setOwn fun progress =>
      f { progress with shares := n })) = _
    rw [allShares_modifyNode, hs]
    simp [SNodeStatus.setOwn, hf _, hzero]
  · unfold sharesOf
    rw [hget]
    exact hf _

/-- A node that is offered shares adds those it is given, and the spread share stays. -/
theorem offerShares_fields (uTimeOut : ℕ) (c : Offer) (freeShares holders : ℤ) (h : SharesOk g l)
    (huntried : isUntried l c.pNode = true) : allShares (offerShares uTimeOut c freeShares holders l) =
        allShares l + sharesOf (offerShares uTimeOut c freeShares holders l) c.pNode ∧
      shareLimit (offerShares uTimeOut c freeShares holders l).own = shareLimit l.own := by
  obtain ⟨s, hs, hzero, -⟩ := shares_of_untried h huntried
  have hsame : allShares l = allShares l + sharesOf l c.pNode := by
    unfold sharesOf
    rw [hs]
    dsimp only
    omega
  have hstateless := allShares_hand (l := l) (n := 1)
    (f := fun progress => sendRequests l.own { progress with opState := EOpState.eOpStateless })
    hs hzero fun _ => rfl
  have hproxy : ∀ n, allShares (requestShares uTimeOut c.pNode n c.queued l) =
      allShares l + sharesOf (requestShares uTimeOut c.pNode n c.queued l) c.pNode := by
    intro n
    unfold requestShares
    split_ifs
    · have hhand := allShares_hand (l := l) (n := n)
        (f := fun progress => { progress with opState := EOpState.eOpPending }) hs hzero fun _ => rfl
      let handed := hand c.pNode n
        (fun progress => { progress with opState := EOpState.eOpPending }) l
      have hshares : allShares (handed.modifyNode c.pNode (SNodeStatus.await uTimeOut)) =
          allShares handed := by
        rw [allShares_modifyNode]
        cases handed.nodes.get c.pNode <;> simp [SNodeStatus.await]
      have hof : sharesOf (handed.modifyNode c.pNode (SNodeStatus.await uTimeOut)) c.pNode =
          sharesOf handed c.pNode := by
        unfold sharesOf CKadLookup.modifyNode
        dsimp only
        rw [get_modify_self]
        cases handed.nodes.get c.pNode <;> rfl
      change allShares (handed.modifyNode c.pNode (SNodeStatus.await uTimeOut)) =
        _ + sharesOf (handed.modifyNode c.pNode (SNodeStatus.await uTimeOut)) c.pNode
      rw [hshares, hof, hhand.1, hhand.2]
    · exact hsame
  unfold offerShares requestProxying
  split_ifs
  · rw [hs]
    dsimp only
    split_ifs
    · exact ⟨hsame, rfl⟩
    · refine ⟨hproxy _, ?_⟩
      unfold requestShares
      split_ifs <;> rfl
  · refine ⟨?_, rfl⟩
    unfold requestStateless
    rw [hstateless.1, hstateless.2]

/-- The loop over the nodes of the routing table hands out what is free. -/
theorem SharesOk.handOut (uTimeOut : ℕ) {offers : List Offer} {freeShares holders : ℤ}
    (h : SharesOk g l) (hfree : 0 < freeShares → allShares l + freeShares ≤ shareLimit l.own) :
    SharesOk g (handOut p uTimeOut offers freeShares holders l).1 := by
  induction offers generalizing freeShares holders l with
  | nil => exact h
  | cons c rest ih =>
    rw [KadOperation.handOut]
    have hchannel : SharesOk g (KadLookup.getChannel (overrides p) c.pNode c.prepared l) :=
      h.getChannel c.pNode c.prepared
    have hstill : 0 < freeShares → allShares (KadLookup.getChannel (overrides p) c.pNode c.prepared l) + freeShares ≤
        shareLimit (KadLookup.getChannel (overrides p) c.pNode c.prepared l).own := by
      rw [allShares_getChannel, own_getChannel]
      exact hfree
    generalize KadLookup.getChannel (overrides p) c.pNode c.prepared l = l₁ at hchannel hstill
    dsimp only
    split_ifs with hnone hfar huntried hzero
    · exact h
    · exact h
    · obtain ⟨hadd, hshare⟩ := offerShares_fields uTimeOut c freeShares holders hchannel huntried
      have hle := hstill (by omega)
      refine ih (hchannel.offerShares holders huntried (by omega) hle) fun _ => ?_
      rw [hadd, hshare, hzero]
      omega
    · obtain ⟨hadd, hshare⟩ := offerShares_fields uTimeOut c freeShares holders hchannel huntried
      have hle := hstill (by omega)
      refine ih (hchannel.offerShares holders huntried (by omega) hle) fun _ => ?_
      rw [hadd, hshare]
      omega
    · exact ih hchannel hstill

section

variable (h : SharesOk g l)

include h

theorem SharesOk.nonneg : 0 ≤ allShares l := by
  have hown : 0 ≤ ownShare l.own := by
    unfold ownShare
    split_ifs <;> omega
  have hnodes := total_nonneg (m := l.nodes) (f := fun _ s => s.own.shares) fun k s hs =>
    (h.nodes k s hs).nonneg
  unfold allShares
  omega

theorem SharesOk.free (hpos : 0 < l.own.spreadShare - allShares l) :
    allShares l + (l.own.spreadShare - allShares l) ≤ shareLimit l.own := by
  have hnonneg := h.nonneg
  unfold shareLimit givenShare
  split_ifs with hzero <;> omega

theorem usedShares_eq : usedShares l = allShares l := by
  unfold usedShares allShares
  congr 1
  refine total_congr fun k s hs => ?_
  by_cases hzero : s.own.shares = 0
  · simp [holdsShares, hzero]
  · obtain ⟨-, hfailed, hchannel⟩ := (h.nodes k s hs).holder hzero
    simp [holdsShares, hzero, hfailed, hchannel]

/-- New transactions are sent. -/
theorem SharesOk.sendNew : SharesOk g (sendNew l) := by
  refine ⟨?_, h.given, fun k s hs => ?_, h.handed⟩
  · have hsame : allShares (KadOperation.sendNew l) = allShares l := by
      unfold allShares KadOperation.sendNew
      dsimp only
      rw [total_mapEntries fun k s _ => ?_]
      split_ifs <;> rfl
    rw [hsame]
    exact h.used
  · unfold KadOperation.sendNew at hs
    dsimp only at hs
    rw [get_mapEntries] at hs
    obtain ⟨s', hs', rfl⟩ := Option.map_eq_some_iff.mp hs
    split_ifs
    · exact (h.nodes k s' hs').same rfl rfl fun hsome => hsome
    · exact h.nodes k s' hs'

/-- The rest of `CKadOperation::Process`. -/
theorem SharesOk.spread (uNow : ℕ) (offers : List Offer) : SharesOk g (spread p uNow offers l) := by
  have hcounted : SharesOk g (countJobs (KadOperation.sendNew l)) := h.sendNew.of_own rfl rfl
  unfold KadOperation.spread
  split_ifs
  · exact h
  · exact h
  · exact hcounted
  · unfold spreadShares
    refine SharesOk.of_own (hcounted.handOut (uNow + p.requestTimeOut) ?_) rfl rfl
    rw [usedShares_eq hcounted]
    exact hcounted.free

theorem SharesOk.modifyOwn {f : SOperation → SOperation}
    (hf : shareView (f l.own) = shareView l.own) : SharesOk g (modifyOwn f l) :=
  h.of_own rfl hf

theorem SharesOk.setOperator (f : CKadOperator → CKadOperator) : SharesOk g (setOperator f l) :=
  h.modifyOwn rfl

end

theorem shareView_setJobs (o : SOperation) (m : OrderedMap ℕ SOpStatus) (task : Task) :
    shareView (o.setJobs m task) = shareView o := by
  cases task <;> rfl

theorem shares_countResult (r : TaskResult) (progress : SOpProgress) :
    (countResult r progress).shares = progress.shares ∧ (countResult r progress).opState = progress.opState := by
  unfold countResult SOpProgress.set
  cases r.task <;> exact ⟨rfl, rfl⟩

theorem SharesOk.receive (h : SharesOk g l) (pNode : Option ℕ) (r : TaskResult) : SharesOk g (receive pNode r l) := by
  have hnoted : SharesOk g (noteReceived pNode r l) := h.modifyOwn rfl
  unfold OperationResults.receive
  split
  · exact hnoted
  · next k hk =>
    exact hnoted.modify_same (k := k) (f := SNodeStatus.setOwn (countResult r))
      (fun s => ⟨(shares_countResult r s.own).1, (shares_countResult r s.own).2, id⟩) rfl rfl

theorem SharesOk.settle (h : SharesOk g l) (task : Task) (xid : ℕ) : SharesOk g (settle task xid l) := by
  have hnoted : SharesOk g (noteSettled task xid l) := by
    unfold noteSettled
    split_ifs
    · exact h.modifyOwn rfl
    · exact h
  exact hnoted.modifyOwn (shareView_setJobs _ _ _)

theorem SharesOk.countCall (h : SharesOk g l) (pNode : Option ℕ) (r : Result ℕ) : SharesOk g (countCall pNode r l) := by
  unfold OperationResults.countCall settleRequest settleCall
  split
  · exact (h.receive _ _).setOperator _
  · exact ((h.receive _ _).settle _ _).setOperator _

end Invariant

section Script

variable {p : KadOperation.Settings} {l : CKadOperation} {g : ℤ}

/-- There are shares to hand out. -/
def FreeShare (n : ℤ) (l : CKadOperation) : Prop := 1 ≤ n ∧ allShares l + n ≤ shareLimit l.own

instance (n : ℤ) (l : CKadOperation) : Decidable (FreeShare n l) := inferInstanceAs (Decidable (_ ∧ _))

/-- The condition on what a script does: a share that it hands out without a look at the
shares that are free is at least one, and free. -/
def ScriptMeets (p : KadOperation.Settings) (l : CKadOperation) : ScriptOp → Prop
  | .addNode _ c bStateless shares =>
    isUntried (getChannel (overrides p) c.pNode c.prepared l) c.pNode = true →
      (bStateless = true → l.own.hasJobs = true → FreeShare 1 l) ∧
      (bStateless = false → shares ≠ 0 → c.queued = true → FreeShare shares l)
  | _ => True

/-- The condition on all that a script does. -/
def ScriptsMeet (p : KadOperation.Settings) : CKadOperation → List ScriptOp → Prop
  | _, [] => True
  | l, op :: ops => ScriptMeets p l op ∧ ScriptsMeet p (scriptStep p l op) ops

theorem SharesOk.addNode (h : SharesOk g l) (uNow : ℕ) (c : Offer) (bStateless : Bool) (shares : ℤ)
    (hmeets : ScriptMeets p l (.addNode uNow c bStateless shares)) :
    SharesOk g (addNode p uNow c bStateless shares l) := by
  have hchannel : SharesOk g (KadLookup.getChannel (overrides p) c.pNode c.prepared l) :=
    h.getChannel c.pNode c.prepared
  have hall := allShares_getChannel (p := p) c.pNode c.prepared l
  have hown := own_getChannel (p := p) c.pNode c.prepared l
  have hfree : ∀ n, FreeShare n l → FreeShare n (KadLookup.getChannel (overrides p) c.pNode c.prepared l) := by
    intro n hn
    unfold FreeShare
    rw [hall, hown]
    exact hn
  replace hmeets : isUntried (KadLookup.getChannel (overrides p) c.pNode c.prepared l) c.pNode = true →
      (bStateless = true → (KadLookup.getChannel (overrides p) c.pNode c.prepared l).own.hasJobs = true →
        FreeShare 1 l) ∧ (bStateless = false → shares ≠ 0 → c.queued = true → FreeShare shares l) := by
    rw [hown]
    exact hmeets
  unfold KadOperation.addNode
  generalize KadLookup.getChannel (overrides p) c.pNode c.prepared l = l₁ at hchannel hfree hmeets
  dsimp only
  split_ifs with huntried hstateless hjobs hshares hleft
  · obtain ⟨s, hs, hzero, hsome⟩ := shares_of_untried hchannel huntried
    exact hchannel.requestStateless hs hzero hsome (hfree 1 ((hmeets huntried).1 hstateless hjobs)).2
  · exact hchannel
  · obtain ⟨s, hs, hzero, hsome⟩ := shares_of_untried hchannel huntried
    exact hchannel.requestShares _ hs hzero hsome fun hqueued =>
      hfree shares ((hmeets huntried).2 (Bool.eq_false_iff.mpr hstateless) hshares hqueued)
  · exact hchannel
  · obtain ⟨s, hs, hzero, hsome⟩ := shares_of_untried hchannel huntried
    exact hchannel.requestProxying _ hs hzero hsome (by omega) (hchannel.free (by omega))
  · exact hchannel

/-- A script responds to a call. -/
theorem SharesOk.addResponse (h : SharesOk g l) (xid ret : ℕ) (bMore : Bool) :
    SharesOk g (addResponse xid ret bMore l) := by
  have hcount : SharesOk g (countResponse xid bMore l) := by
    unfold countResponse
    split_ifs
    · exact h.modifyOwn rfl
    · exact (h.modifyOwn rfl).modifyOwn rfl
  unfold OperationResults.addResponse
  split
  · split_ifs
    · exact h.setOperator _
    · exact hcount.setOperator _
  · exact h

/-- A script does something. -/
theorem SharesOk.scriptStep (h : SharesOk g l) (op : ScriptOp) (hmeets : ScriptMeets p l op) :
    SharesOk g (scriptStep p l op) := by
  cases op with
  | addResponse xid ret bMore => exact h.addResponse xid ret bMore
  | addRequest xid => exact h.setOperator _
  | addNode uNow c bStateless shares => exact h.addNode uNow c bStateless shares hmeets
  | findCloser =>
    unfold OperationResults.scriptStep findCloser
    dsimp only
    split_ifs
    · exact h.of_own rfl rfl
    · exact h

/-- A script is called. -/
theorem SharesOk.runScript (h : SharesOk g l) (ops : List ScriptOp)
    (hmeets : hasScript l = true → ScriptsMeet p l ops) : SharesOk g (runScript p ops l) := by
  unfold OperationResults.runScript
  unfold hasScript at hmeets
  split
  · exact h
  · next operator hoperator =>
    rw [hoperator] at hmeets
    split_ifs with hvalid
    · replace hmeets := hmeets hvalid
      clear hoperator hvalid
      induction ops generalizing l with
      | nil => exact h
      | cons op ops ih => exact ih (h.scriptStep op hmeets.1) hmeets.2
    · exact h

/-- The condition on what a script does with results of calls. -/
def CallsMeet (p : KadOperation.Settings) (pNode : Option ℕ) : CKadOperation → List (Result ℕ × OnResponse) → Prop
  | _, [] => True
  | l, (r, script) :: rest =>
    (isConsulted r (countCall pNode r l) = true → ScriptsMeet p (countCall pNode r l) script.ops) ∧
      CallsMeet p pNode (callScript p r script (countCall pNode r l)) rest

/-- The condition on what a script does with calls that are asked for. -/
def RequestsMeet (p : KadOperation.Settings) : CKadOperation → List CallRequest → Prop
  | _, [] => True
  | l, request :: rest =>
    if (l.own.callMap.get request.xid).isSome then RequestsMeet p l rest
    else if hasScript (addJob Task.call request.xid l) then
      ScriptsMeet p (addJob Task.call request.xid l) request.ops ∧
        RequestsMeet p (scriptCall p request (addJob Task.call request.xid l)).1 rest
    else RequestsMeet p (addJob Task.call request.xid l) rest

section

variable (h : SharesOk g l)

include h

variable (pNode : Option ℕ)

theorem SharesOk.addCallResults (results : List (Result ℕ × OnResponse)) (hmeets : CallsMeet p pNode l results) :
    SharesOk g (addCallResults p pNode results l).1 := by
  induction results generalizing l with
  | nil => exact h
  | cons e rest ih =>
    obtain ⟨r, script⟩ := e
    have hcounted : SharesOk g (OperationResults.countCall pNode r l) := h.countCall pNode r
    refine ih ?_ hmeets.2
    unfold callScript
    split_ifs with hconsulted
    · exact hcounted.runScript script.ops fun _ => hmeets.1 hconsulted
    · exact hcounted

theorem SharesOk.addCallRes (results : List (Result ℕ × OnResponse)) (hmeets : CallsMeet p pNode l results) :
    SharesOk g (addCallRes p pNode results l).1 :=
  (h.addCallResults pNode results hmeets).setOperator _

theorem SharesOk.addStoreRes (results : List (Result ℕ)) : SharesOk g (addStoreRes pNode results l).1 := by
  induction results generalizing l with
  | nil => exact h
  | cons r rest ih => exact ih ((h.receive pNode (TaskResult.store r)).settle Task.store r.xid)

theorem SharesOk.passLoad (r : Result (List Payload)) : SharesOk g (passLoad p r l).1 := by
  unfold OperationResults.passLoad
  split_ifs
  · exact h
  · exact h.of_own rfl rfl

theorem SharesOk.addLoadRes (results : List (Result (List Payload))) : SharesOk g (addLoadRes p pNode results l).1 := by
  induction results generalizing l with
  | nil => exact h
  | cons r rest ih =>
    exact ih (((h.receive pNode (TaskResult.load r)).settle Task.load r.xid).passLoad r)

theorem SharesOk.addJob (task : Task) (xid : ℕ) : SharesOk g (addJob task xid l) := by
  unfold OperationResults.addJob
  split_ifs
  · exact h
  · exact h.modifyOwn (shareView_setJobs _ _ _)

theorem SharesOk.addJobs (task : Task) (xids : List ℕ) :
    SharesOk g (xids.foldl (fun l xid => OperationResults.addJob task xid l) l) := by
  induction xids generalizing l with
  | nil => exact h
  | cons xid rest ih => exact ih (h.addJob task xid)

theorem SharesOk.scriptCall (request : CallRequest) (hmeets : hasScript l = true → ScriptsMeet p l request.ops) :
    SharesOk g (scriptCall p request l).1 := by
  have hcalled : SharesOk g (OperationResults.runScript p request.ops l) :=
    h.runScript request.ops hmeets
  unfold OperationResults.scriptCall
  dsimp only
  split
  · exact (hcalled.modifyOwn rfl).modifyOwn rfl
  · exact hcalled
  · exact hcalled.setOperator _

/-- Calls are asked for. -/
theorem SharesOk.addCallReq (requests : List CallRequest)
    (hmeets : RequestsMeet p l requests) : SharesOk g (addCallReq p requests l).1 := by
  refine SharesOk.setOperator ?_ _
  induction requests generalizing l with
  | nil => exact h
  | cons request rest ih =>
    rw [RequestsMeet] at hmeets
    rw [addCallRequests]
    dsimp only
    split_ifs at hmeets ⊢ with hknown hscript
    · exact ih h hmeets
    · exact ih ((h.addJob _ _).scriptCall request fun _ => hmeets.1) hmeets.2
    · exact ih (h.addJob _ _) hmeets

end

end Script

section Run

variable {p : KadOperation.Settings} {l : CKadOperation} {g : ℤ}

theorem givenShare_given (spreadCount spreadShare : ℤ) :
    givenShare spreadCount (if spreadShare = 0 then spreadCount else spreadShare) =
      givenShare spreadCount spreadShare := by
  unfold givenShare
  by_cases hzero : spreadShare = 0 <;> simp [hzero]

theorem fields_ite_setState (c : Prop) [Decidable c] (l : CKadOperation) (state : ELookupState) :
    (if c then l.setState state else l).nodes = l.nodes ∧ (if c then l.setState state else l).own = l.own := by
  split_ifs <;> exact ⟨rfl, rfl⟩

theorem initOperation_fields (rand : ℕ) (l : CKadOperation) : (KadOperation.initOperation rand l).nodes = l.nodes ∧
      shareView (KadOperation.initOperation rand l).own = shareView l.own := by
  unfold KadOperation.initOperation
  refine ⟨(fields_ite_setState _ _ _).1, ?_⟩
  rw [(fields_ite_setState _ _ _).2]
  exact congrArg (fun share => (share, l.own.inRange, l.own.trace.handed)) (givenShare_given _ _)

/-- The operation when a node has responded to a request to be a proxy. -/
def proxied (pNode : ℕ) (l : CKadOperation) : CKadOperation :=
  ((l.tell (HistoryCall.registerResponse pNode)).modifyNode pNode SNodeStatus.answered).modifyNode
    pNode (SNodeStatus.setOwn fun progress => { progress with opState := EOpState.eOpProxy })

/-- A closest node is asked for its own answer. -/
def asksClosest (closest : CKadOperation × Bool) : Prop :=
  closest.2 = true ∧ closest.1.own.manualMode = false ∧ closest.1.own.hasJobs = true

/-- The condition on a step: a script meets it, a closest node that is asked for its own answer
and was not asked before has a channel, and a share is free for it. -/
def Meets (p : KadOperation.Settings) (l : CKadOperation) : OperationResults.Op → Prop
  | .script ops => hasScript l = true → ScriptsMeet p l ops
  | .nodesAnswered uNow pNode queued named =>
    let counted := countNamed p.toSettings uNow pNode queued named l
    let closest := onCloserNodes pNode counted.2 counted.1
    asksClosest closest → ∀ s, closest.1.nodes.get pNode = some s →
      s.own.opState = EOpState.eNoOp → s.pChannel.isSome = true ∧ FreeShare 1 closest.1
  | .proxyingResponse pNode error ops =>
    (l.nodes.get pNode).isSome = true → error = "" → hasScript l = true → ScriptsMeet p (proxied pNode l) ops
  | .executeRes pNode results => CallsMeet p (some pNode) l results
  | .executeReq requests own => RequestsMeet p l requests ∧ ((addCallReq p requests l).1.own.inRange = true →
        CallsMeet p none (addCallReq p requests l).1 own)
  | _ => True

/-- The condition on all steps of a run. -/
def AllMeet (p : KadOperation.Settings) : CKadOperation → List OperationResults.Op → Prop
  | _, [] => True
  | l, op :: ops => Meets p l op ∧ AllMeet p (step p l op) ops

section

variable (h : SharesOk g l)

include h

theorem SharesOk.deal (k : ℕ) (o : SOperation) : SharesOk g (l.modifyNode k (SNodeStatus.setOwn (sendRequests o))) :=
  h.modify_same (k := k) (f := SNodeStatus.setOwn (sendRequests o)) (fun _ => ⟨rfl, rfl, id⟩) rfl rfl

theorem SharesOk.handleError (pNode : ℕ) : SharesOk g (handleError pNode l) :=
  h.modify_drop (k := pNode) (f := SNodeStatus.setOwn fun progress =>
    { progress with shares := 0, opState := EOpState.eOpFailed }) (fun _ => rfl) rfl rfl

theorem SharesOk.proxyingResponse (pNode : ℕ) (error : String)
    (ops : List ScriptOp) (hmeets : Meets p l (.proxyingResponse pNode error ops)) :
    SharesOk g (proxyingResponse p pNode error ops l) := by
  have hanswered : SharesOk g ((l.tell (HistoryCall.registerResponse pNode)).modifyNode pNode SNodeStatus.answered) :=
    h.modify_same (k := pNode) (f := SNodeStatus.answered) (fun _ => ⟨rfl, rfl, id⟩) rfl rfl
  have hproxied : SharesOk g (proxied pNode l) := by
    refine hanswered.modify (k := pNode) (f := SNodeStatus.setOwn fun progress =>
      { progress with opState := EOpState.eOpProxy }) (fun s _ hok => ⟨⟨hok.shares, ?_⟩, le_rfl⟩)
      rfl rfl
    exact fun hne => ⟨EOpState.noConfusion, EOpState.noConfusion, (hok.holder hne).2.2⟩
  unfold OperationResults.proxyingResponse
  dsimp only
  split_ifs with hunknown herror
  · exact hanswered
  · exact hanswered.handleError pNode
  · refine SharesOk.deal (hproxied.runScript ops (hmeets ?_ (not_not.mp herror))) pNode _
    change ¬((l.nodes.modify pNode SNodeStatus.answered).get pNode).isNone = true at hunknown
    rw [get_modify_self, Option.isNone_map] at hunknown
    exact Option.isSome_iff_ne_none.mpr (by simpa using hunknown)

theorem SharesOk.nodesAnswered {uNow pNode : ℕ} {queued : ℕ → Bool}
    {named : List ℕ} (hmeets : Meets p l (.nodesAnswered uNow pNode queued named)) :
    SharesOk g (nodesAnswered p uNow pNode queued named l) := by
  have hkeeps := keeps_sharesOk p g
  have hclosest : SharesOk g (KadLookup.onCloserNodes pNode
      (KadLookup.countNamed p.toSettings uNow pNode queued named l).2
      (KadLookup.countNamed p.toSettings uNow pNode queued named l).1).1 :=
    hkeeps.onCloserNodes (hkeeps.countNamed h p.toSettings uNow pNode queued named) pNode _
  unfold Meets at hmeets
  unfold OperationResults.nodesAnswered onCloserOperation
  dsimp only at hmeets ⊢
  generalize KadLookup.onCloserNodes pNode (KadLookup.countNamed p.toSettings uNow pNode queued named l).2
    (KadLookup.countNamed p.toSettings uNow pNode queued named l).1 = closest at hmeets hclosest
  obtain ⟨l₁, asked⟩ := closest
  split
  · next heq =>
    cases heq
    exact hclosest
  · next heq =>
    cases heq
    split
    · exact hclosest
    · next s hs =>
      split_ifs with hask
      · simp only [Bool.and_eq_true, Bool.not_eq_true', decide_eq_true_eq] at hask
        obtain ⟨hchannel, -, hfree⟩ := hmeets ⟨rfl, hask.1.1, hask.2⟩ s hs hask.1.2
        have huntried : isUntried l₁ pNode = true := by
          unfold isUntried
          rw [hs]
          simp [hchannel, hask.1.2]
        obtain ⟨s', hs', hzero, hsome⟩ := shares_of_untried hclosest huntried
        exact hclosest.requestStateless hs' hzero hsome hfree
      · exact hclosest

/-- A step that meets the condition keeps the shares. -/
theorem SharesOk.step (op : OperationResults.Op) (hmeets : Meets p l op) : SharesOk g (step p l op) := by
  cases op with
  | process uNow candidates => exact (keeps_sharesOk p g).processLookup h _ _ _
  | spread uNow offers => exact h.spread uNow offers
  | script ops => exact h.runScript ops hmeets
  | nodesAnswered uNow pNode queued named => exact h.nodesAnswered hmeets
  | proxyingResponse pNode error ops => exact h.proxyingResponse pNode error ops hmeets
  | handleError pNode => exact h.handleError pNode
  | executeRes pNode results => exact (h.addCallRes (some pNode) results hmeets).modifyOwn rfl
  | storeRes pNode results => exact (h.addStoreRes (some pNode) results).modifyOwn rfl
  | loadRes pNode results => exact (h.addLoadRes (some pNode) results).modifyOwn rfl
  | executeReq requests own =>
    have hasked : SharesOk g (OperationResults.addCallReq p requests l).1 := h.addCallReq requests hmeets.1
    unfold OperationResults.step handleExecuteReq
    dsimp only
    split_ifs with hrange
    · exact (hasked.addCallRes none own (hmeets.2 hrange)).modifyOwn rfl
    · exact hasked.modifyOwn rfl
  | storeReq xids own =>
    have hasked := h.addJobs Task.store xids
    unfold OperationResults.step handleStoreReq
    dsimp only
    split_ifs
    · exact (hasked.addStoreRes none own).modifyOwn rfl
    · exact hasked
  | loadReq xids own =>
    have hasked := h.addJobs Task.load xids
    unfold OperationResults.step handleLoadReq
    dsimp only
    split_ifs
    · exact (hasked.addLoadRes none own).modifyOwn rfl
    · exact hasked
  | flushCaches => exact (h.setOperator _).modifyOwn rfl
  | disconnect pNode => exact (keeps_sharesOk p g).disconnect h pNode
  | start rand =>
    refine h.of_own (initOperation_fields rand l).1 ?_
    exact (initOperation_fields rand l).2

theorem SharesOk.run (ops : List OperationResults.Op) (hmeets : AllMeet p l ops) : SharesOk g (run p l ops) := by
  induction ops generalizing l with
  | nil => exact h
  | cons op ops ih => exact ih (h.step op hmeets.1) hmeets.2

end

/-- A new operation in order. -/
theorem sharesOk_new (id : ℕ) (hopLimit jumpCount spreadCount spreadShare : ℤ) (inRange manualMode script : Bool)
    (hgiven : (if inRange then 1 else 0) ≤ givenShare spreadCount spreadShare) :
    SharesOk (givenShare spreadCount spreadShare)
      (new id hopLimit jumpCount spreadCount spreadShare inRange manualMode script) where
  used := by
    unfold allShares
    change ownShare _ + 0 ≤ _
    rw [add_zero]
    exact hgiven
  given := le_rfl
  nodes := fun _ _ hs => by cases hs
  handed := fun _ hn => absurd hn List.not_mem_nil

/-- In a run whose steps meet the condition, the shares of the nodes that are in use, and one if
the node itself is in range, do not exceed the spread share that was given, and every share that
was handed to a node is at least one. -/
theorem run_shares (p : KadOperation.Settings) (id : ℕ)
    (hopLimit jumpCount spreadCount spreadShare : ℤ) (inRange manualMode script : Bool)
    (ops : List OperationResults.Op)
    (hgiven : (if inRange then 1 else 0) ≤ givenShare spreadCount spreadShare)
    (hmeets : AllMeet p (new id hopLimit jumpCount spreadCount spreadShare inRange manualMode script) ops) :
    let l := run p (new id hopLimit jumpCount spreadCount spreadShare inRange manualMode script) ops
    usedShares l ≤ givenShare spreadCount spreadShare ∧ ∀ n ∈ l.own.trace.handed, 1 ≤ n := by
  have hrun := (sharesOk_new id hopLimit jumpCount spreadCount spreadShare inRange manualMode script
    hgiven).run ops hmeets
  refine ⟨?_, hrun.handed⟩
  rw [usedShares_eq hrun]
  exact hrun.used.trans hrun.given

/-- The settings of the examples. -/
def exampleSettings : KadOperation.Settings := ⟨⟨id, 1, 10⟩, 100, id⟩

/-- A store is asked for, and node 8 is asked and is the closest one. -/
def exampleRun : List OperationResults.Op :=
  [.storeReq [7] [], .start 0, .process 5 [⟨8, true, true⟩], .nodesAnswered 6 8 (fun _ => true) []]

/-- A task whose closest node answers for itself. -/
theorem run_shares_example :
    let l := run exampleSettings (new 0 1 0 1 0 false false false) exampleRun
    usedShares l ≤ givenShare 1 0 ∧ ∀ n ∈ l.own.trace.handed, 1 ≤ n :=
  run_shares exampleSettings 0 1 0 1 0 false false false exampleRun (by decide) (by
      refine ⟨trivial, trivial, trivial, fun _ s hs _ => ?_, trivial⟩
      cases hs
      decide)

/-- A task with one share asks node 9 after node 8 has not answered in time, and both answer and
are asked for their own answers. A script hands out a negative share. -/
theorem run_shares_wrong :
    let l := run exampleSettings (new 0 1 0 1 0 false false false)
      [.storeReq [7] [], .start 0, .process 5 [⟨8, true, true⟩],
        .process 20 [⟨8, true, true⟩, ⟨9, true, true⟩], .nodesAnswered 21 9 (fun _ => true) [],
        .nodesAnswered 22 8 (fun _ => true) []]
    let scripted := run exampleSettings (new 0 2 0 1 0 false true true)
      [.start 0, .script [.addNode 5 ⟨⟨8, true, true⟩, 0⟩ false (-3)]]
    givenShare 1 0 = 1 ∧ usedShares l = 2 ∧ scripted.own.trace.handed = [-3] := by
  decide

end Run

end NeoLoader.SpreadShares
