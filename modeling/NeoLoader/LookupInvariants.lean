import NeoLoader.KadLookup

/-!
# What the moves of a lookup keep

A property of lookups that the single moves keep is kept by what a lookup does as a whole,
whatever it is derived to.
-/

namespace NeoLoader.LookupInvariants

open KeyMap KeyMap.OrderedMap KadLookup

variable {σ ρ : Type}

/-- The moves of a lookup keep a property. -/
structure Keeps (v : Overrides σ ρ) (P : CKadLookup σ ρ → Prop) : Prop where
  /-- Only the nodes and what is derived matter. -/
  frame : ∀ l l' : CKadLookup σ ρ, l'.nodes = l.nodes → l'.own = l.own → P l → P l'
  /-- A channel is asked for. -/
  channel : ∀ l k prepared, P l → P (getChannel v k prepared l)
  /-- A node in another state of the lookup. -/
  status : ∀ (l : CKadLookup σ ρ) k f, (∀ s : SNodeStatus σ, (f s).own = s.own ∧
    (f s).pChannel.isSome = s.pChannel.isSome) → P l → P (l.modifyNode k f)
  /-- A lost channel. -/
  lose : ∀ l k s, l.nodes.get k = some s → P l → P (stallLookup v s.uTimeOut (l.modifyNode k (loseStatus v)))
  /-- A request out of time. -/
  pass : ∀ l k s, l.nodes.get k = some s → P l → P (stallLookup v s.uTimeOut (l.modifyNode k (passStatus v)))

variable {v : Overrides σ ρ} {P : CKadLookup σ ρ → Prop} {l : CKadLookup σ ρ}

section

variable (hkeeps : Keeps v P)

include hkeeps

theorem Keeps.tell (h : P l) (call : HistoryCall) : P (l.tell call) :=
  hkeeps.frame l _ rfl rfl h

theorem Keeps.fail (h : P l) (k : ℕ) : P (l.fail k) :=
  hkeeps.frame l _ rfl rfl h

theorem Keeps.setState (h : P l) (state : ELookupState) : P (l.setState state) :=
  hkeeps.frame l _ rfl rfl h

theorem Keeps.addClosest (h : P l) (n : ℤ) : P (l.addClosest n) :=
  hkeeps.frame l _ rfl rfl h

/-- A look at a node. -/
theorem Keeps.checkChannel (h : P l) {uNow k : ℕ} {s : SNodeStatus σ}
    (hs : l.nodes.get k = some s) : P (checkChannel v uNow k s l) := by
  unfold KadLookup.checkChannel
  split
  · exact h
  · have hlost := hkeeps.lose l k s hs h
    refine hkeeps.frame _ _ ?_ ?_ hlost
    · unfold loseChannel loseClosest stallLookup
      split_ifs <;> rfl
    · unfold loseChannel loseClosest stallLookup
      split_ifs <;> rfl
  · split_ifs
    · exact hkeeps.pass l k s hs h
    · exact h

theorem Keeps.checkNodes (uNow : ℕ) (keys : List ℕ)
    {acc : CKadLookup σ ρ × ℤ} (h : P acc.1) : P (checkNodes v uNow keys acc).1 := by
  induction keys generalizing acc with
  | nil => exact h
  | cons k rest ih =>
    rw [KadLookup.checkNodes]
    split
    · exact ih h
    · next s hs => exact ih (hkeeps.checkChannel h hs)

theorem Keeps.requestNodes (h : P l) (uTimeOut k : ℕ) (channel queued : Bool) (byID : Option ℕ) :
    P (requestNodes uTimeOut k channel queued byID l).1 := by
  unfold KadLookup.requestNodes
  split
  · exact h
  · split_ifs
    · exact hkeeps.tell (hkeeps.status l k
        (fun s => (s.setState ELookupState.eLookupActive).await uTimeOut) (fun _ => ⟨rfl, rfl⟩) h) _
    · exact h

theorem Keeps.askNode (h : P l) (uTimeOut : ℕ) (c : Candidate) : P (askNode v uTimeOut c l).1 := by
  have hrequest := hkeeps.requestNodes (hkeeps.channel l c.pNode c.prepared h) uTimeOut c.pNode
    (hasChannel (getChannel v c.pNode c.prepared l) c.pNode) c.queued none
  unfold KadLookup.askNode
  dsimp only
  split
  · next heq =>
    rw [heq] at hrequest
    exact hrequest
  · next heq =>
    rw [heq] at hrequest
    exact hkeeps.fail hrequest _

/-- The second loop. -/
theorem Keeps.askNodes (uTimeOut : ℕ) (candidates : List Candidate) (ask : ℤ)
    {acc : CKadLookup σ ρ × ℤ} (h : P acc.1) : P (askNodes v uTimeOut candidates ask acc).1 := by
  induction candidates generalizing ask acc with
  | nil => exact h
  | cons c rest ih =>
    obtain ⟨l, active⟩ := acc
    have hone : P (KadLookup.askNode v uTimeOut c l).1 := hkeeps.askNode h uTimeOut c
    rw [KadLookup.askNodes]
    split_ifs
    · exact h
    · exact ih _ h
    · split
      · next heq =>
        rw [heq] at hone
        exact ih _ hone
      · next heq =>
        rw [heq] at hone
        exact ih _ hone

theorem Keeps.processLookup (h : P l) (requestTimeOut uNow : ℕ)
    (candidates : List Candidate) : P (processLookup v requestTimeOut uNow candidates l) := by
  have hcheck : P (KadLookup.checkNodes v uNow (nodeKeys l) (l, 0)).1 :=
    hkeeps.checkNodes uNow _ h
  unfold KadLookup.processLookup lookForNodes
  dsimp only
  split_ifs
  · exact hkeeps.setState (hkeeps.askNodes _ _ _ hcheck) _
  · exact hkeeps.askNodes _ _ _ hcheck
  · exact hcheck

/-- The loop over named nodes. -/
theorem Keeps.countCloser (h : P l) (uTimeOut pNode uDistance : ℕ)
    (queued : ℕ → Bool) (found : List (ℕ × ℕ)) (count : ℕ) :
    P (countCloser uTimeOut pNode uDistance queued found count l).1 := by
  induction found generalizing count l with
  | nil => exact h
  | cons e rest ih =>
    obtain ⟨distance, node⟩ := e
    have hone := hkeeps.requestNodes h uTimeOut node true (queued node) (some pNode)
    rw [KadLookup.countCloser]
    split_ifs
    · exact ih h _
    · exact ih h _
    · exact ih h _
    · split
      · next heq =>
        rw [heq] at hone
        exact ih hone _
      · next heq =>
        rw [heq] at hone
        exact ih hone _

theorem Keeps.countNamed (h : P l) (p : Settings) (uNow pNode : ℕ)
    (queued : ℕ → Bool) (named : List ℕ) : P (countNamed p uNow pNode queued named l).1 := by
  unfold KadLookup.countNamed addNodes
  exact hkeeps.countCloser (hkeeps.tell h _) _ _ _ _ _ _

/-- `CKadLookup::OnCloserNodes`. -/
theorem Keeps.onCloserNodes (h : P l) (pNode closerCount : ℕ) : P (onCloserNodes pNode closerCount l).1 := by
  have htold : P (l.tell (HistoryCall.registerNodes pNode closerCount)) :=
    hkeeps.tell h _
  unfold KadLookup.onCloserNodes
  dsimp only
  split
  · exact htold
  · unfold closerNodes
    split_ifs
    · exact hkeeps.status _ _ _ (fun _ => ⟨rfl, rfl⟩) htold
    · exact hkeeps.status _ _ _ (fun _ => ⟨rfl, rfl⟩) htold
    · exact hkeeps.addClosest (hkeeps.status _ pNode
        (fun s => s.answered.setState ELookupState.eLookupClosest) (fun _ => ⟨rfl, rfl⟩) htold) 1

theorem Keeps.disconnect (h : P l) (pNode : ℕ) : P (disconnect pNode l) := by
  refine hkeeps.status l pNode SNodeStatus.disconnect (fun s => ⟨rfl, ?_⟩) h
  unfold SNodeStatus.disconnect
  rw [Option.isSome_map]

end

end NeoLoader.LookupInvariants
