import NeoLoader.ClosestCounter
import NeoLoader.PendingRelays

/-!
# The counters of lookups and relays

Over a run the number of closest nodes and the number of pending relays stay right as long
as no step treats a node that they are not made for: a closest node that becomes an up
link, is closed as no longer needed, gets a new channel or answers again, and a node that
stalls or responds without an open request.
-/

namespace NeoLoader.LookupCounters

open KeyMap KeyMap.OrderedMap KadLookup KadRelay ClosestCounter PendingRelays

/-- The condition on a step of a lookup: who answers has a channel, and who answers with
closer nodes is not taken for a closest one. -/
def LookupMeets (p : KadLookup.Settings) (l : CKadLookup Unit Unit) : KadLookup.Op → Prop
  | .nodesAnswered uNow pNode queued named =>
    let counted := countNamed p uNow pNode queued named l
    AnswerMeets pNode counted.2 counted.1
  | _ => True

/-- Each step of a run of a lookup meets its condition. -/
def LookupRunMeets (p : KadLookup.Settings) : CKadLookup Unit Unit → List KadLookup.Op → Prop
  | _, [] => True
  | l, op :: ops => LookupMeets p l op ∧ LookupRunMeets p (KadLookup.step p l op) ops

/-- The condition on the search for relays: no node taken for a closest one gets a new
channel, or is closed as no longer needed. -/
def RelaysMeet (p : KadRelay.Settings) (uNow : ℕ) (relays : List Candidate) (l : CKadRelay) :
    Prop :=
  NoneStale l relays ∧ ((askRelays p uNow relays (askForRelay l) l).own.pendingRelays = 0 →
      NoneClosest (askRelays p uNow relays (askForRelay l) l))

/-- The condition on `CKadRelay::Process`: nodes that stall have an open request, and that
on the search for relays. -/
def ProcessMeets (p : KadRelay.Settings) (uNow : ℕ) (candidates relays : List Candidate) (l : CKadRelay) : Prop :=
  uNow + p.requestTimeOut ≠ 0 ∧ FailsMeet uNow (nodeKeys l) l ∧
    let l := processLookup (overrides p) p.requestTimeOut uNow candidates l
    l.lookupState = ELookupState.eLookupActive ∨ RelaysMeet p uNow relays (reset p uNow l)

/-- The condition on an answer with closer nodes, when it is counted: also no request to the
node is open. -/
def RelayAnswerMeets (pNode closerCount : ℕ) (l : CKadRelay) : Prop :=
  AnswerMeets pNode closerCount l ∧ ∀ s, l.nodes.get pNode = some s → s.own.pending = false

/-- The condition on a step of a relay. -/
def RelayMeets (p : KadRelay.Settings) (l : CKadRelay) : KadRelay.Op → Prop
  | .process uNow candidates relays => ProcessMeets p uNow candidates relays l
  | .nodesAnswered uNow pNode queued named _ =>
    let counted := countNamed p.toSettings uNow pNode queued named l
    uNow + p.requestTimeOut ≠ 0 ∧ RelayAnswerMeets pNode counted.2 counted.1
  | .upLinkResponse pNode error =>
    ResponseMeets l pNode ∧ (error = "" → ∀ s, l.nodes.get pNode = some s → isClosest s = false)
  | .stop => l.own.pendingRelays = 0
  | _ => True

/-- Each step of a run of a relay meets its condition. -/
def RelayRunMeets (p : KadRelay.Settings) : CKadRelay → List KadRelay.Op → Prop
  | _, [] => True
  | l, op :: ops => RelayMeets p l op ∧ RelayRunMeets p (KadRelay.step p l op) ops

/-- A step of a lookup keeps the excess. -/
theorem closestExcess_lookupStep {p : KadLookup.Settings} {l : CKadLookup Unit Unit}
    {op : KadLookup.Op} (h : closestExcess l = 0) (hmeets : LookupMeets p l op) :
    closestExcess (KadLookup.step p l op) = 0 := by
  cases op with
  | process uNow candidates => exact (closestExcess_processLookup _ _ _ _ _).trans h
  | nodesAnswered uNow pNode queued named =>
    exact (closestExcess_onCloserNodes hmeets).trans ((closestExcess_addNodes _ _ _ _ _ _).trans h)
  | disconnect pNode => exact (closestExcess_disconnect _ _).trans h
  | start => exact (closestExcess_initOperation _).trans h
  | stop => rfl

theorem closestExcess_lookupRun {p : KadLookup.Settings} {l : CKadLookup Unit Unit}
    (ops : List KadLookup.Op) (h : closestExcess l = 0) (hmeets : LookupRunMeets p l ops) :
    closestExcess (KadLookup.run p l ops) = 0 := by
  induction ops generalizing l with
  | nil => exact h
  | cons op ops ih => exact ih (closestExcess_lookupStep h hmeets.1) hmeets.2

/-- Both counters of a relay are right. -/
structure CountersRight (l : CKadRelay) : Prop where
  /-- `m_ClosestNodes`. -/
  closest : closestExcess l = 0
  /-- `m_PendingRelays`. -/
  pending : PendingOk l

variable {p : KadRelay.Settings} {l : CKadRelay}

theorem CountersRight.lookForRelays (h : CountersRight l) {uNow : ℕ} {relays : List Candidate}
    (htime : uNow + p.requestTimeOut ≠ 0) (hmeets : RelaysMeet p uNow relays (reset p uNow l)) :
    CountersRight (lookForRelays p uNow relays l) where
  closest :=
    (closestExcess_closeUnneeded hmeets.2).trans ((closestExcess_askRelays uNow _ hmeets.1).trans
        ((closestExcess_reset uNow l).trans h.closest))
  pending := ((h.pending.reset uNow).askRelays htime relays _).closeUnneeded

/-- `CKadRelay::Process`. -/
theorem CountersRight.process (h : CountersRight l) {uNow : ℕ} {candidates relays : List Candidate}
    (hmeets : ProcessMeets p uNow candidates relays l) : CountersRight (processRelay p uNow candidates relays l) := by
  obtain ⟨htime, hfails, hrelays⟩ := hmeets
  have hlookup : CountersRight (processLookup (overrides p) p.requestTimeOut uNow candidates l) :=
    ⟨(closestExcess_processLookup _ _ _ _ _).trans h.closest, h.pending.processLookup _ hfails⟩
  unfold processRelay
  dsimp only at hrelays ⊢
  split_ifs with hactive
  · exact hlookup
  · exact hlookup.lookForRelays htime (hrelays.resolve_left hactive)

/-- A node that has answered has the channel it had before. -/
theorem channel_onCloserNodes {pNode closerCount : ℕ} (h : AnswerMeets pNode closerCount l)
    {s : SNodeStatus SRelayState} (hs : (onCloserNodes pNode closerCount l).1.nodes.get pNode = some s) :
    s.pChannel.isSome = true := by
  unfold onCloserNodes CKadLookup.tell at hs
  dsimp only at hs
  split at hs
  · exact (h s hs).1
  · next s' hs' =>
    have hnode : ∀ f : SNodeStatus SRelayState → SNodeStatus SRelayState,
        (∀ s, (f s).pChannel = s.pChannel) → (l.nodes.modify pNode f).get pNode = some s →
        s.pChannel.isSome = true := by
      intro f hf hget
      rw [get_modify_self] at hget
      obtain ⟨t, ht, rfl⟩ := Option.map_eq_some_iff.mp hget
      rw [hf]
      exact (h t ht).1
    unfold closerNodes at hs
    split_ifs at hs
    · exact hnode (fun s => s.answered.setState ELookupState.eLookupFinished) (fun _ => rfl) hs
    · exact hnode SNodeStatus.answered (fun _ => rfl) hs
    · exact hnode (fun s => s.answered.setState ELookupState.eLookupClosest) (fun _ => rfl) hs

/-- `CKadRelay::OnCloserNodes`. -/
theorem CountersRight.onCloserRelay (h : CountersRight l) {uNow pNode closerCount : ℕ}
    (queued : Bool) (htime : uNow + p.requestTimeOut ≠ 0) (hmeets : RelayAnswerMeets pNode closerCount l) :
    CountersRight (onCloserRelay p uNow pNode closerCount queued l) := by
  have hanswer : CountersRight (onCloserNodes pNode closerCount l).1 :=
    ⟨(closestExcess_onCloserNodes hmeets.1).trans h.closest, h.pending.onCloserNodes closerCount hmeets.2⟩
  have hrequest : CountersRight (requestUpLink (uNow + p.requestTimeOut) pNode true queued
      (onCloserNodes pNode closerCount l).1).1 :=
    ⟨(closestExcess_requestUpLink _ _ _ _ _).trans hanswer.closest,
      hanswer.pending.requestUpLink queued htime fun s hs _ => channel_onCloserNodes hmeets.1 hs⟩
  unfold KadRelay.onCloserRelay
  split
  · next heq =>
    rw [heq] at hanswer
    exact hanswer
  · next heq =>
    rw [heq] at hanswer hrequest
    split_ifs
    · exact hrequest
    · exact hanswer

theorem CountersRight.step (h : CountersRight l) {op : KadRelay.Op} (hmeets : RelayMeets p l op) :
    CountersRight (KadRelay.step p l op) := by
  cases op with
  | process uNow candidates relays => exact h.process hmeets
  | nodesAnswered uNow pNode queued named routeQueued =>
    obtain ⟨htime, hanswer⟩ := hmeets
    have hadd : CountersRight (countNamed p.toSettings uNow pNode queued named l).1 :=
      ⟨(closestExcess_addNodes _ _ _ _ _ _).trans h.closest, h.pending.addNodes _ _ _ _ _⟩
    exact hadd.onCloserRelay routeQueued htime hanswer
  | upLinkResponse pNode error =>
    exact ⟨(closestExcess_upLinkResponse hmeets.2).trans h.closest, h.pending.upLinkResponse hmeets.1 error⟩
  | disconnect pNode =>
    exact ⟨(closestExcess_disconnect _ _).trans h.closest, h.pending.disconnect pNode⟩
  | setLinks upLink downLink => exact ⟨h.closest, h.pending.of_eq rfl rfl⟩
  | start => exact ⟨(closestExcess_initOperation _).trans h.closest, h.pending.initOperation⟩
  | stop =>
    refine ⟨rfl, ?_, fun k s hs => ?_⟩
    · exact hmeets
    · exact absurd hs (Option.some_ne_none s).symm

theorem CountersRight.run (h : CountersRight l) (ops : List KadRelay.Op)
    (hmeets : RelayRunMeets p l ops) : CountersRight (KadRelay.run p l ops) := by
  induction ops generalizing l with
  | nil => exact h
  | cons op ops ih => exact ih (h.step hmeets.1) hmeets.2

theorem countersRight_new (id : ℕ) (hopLimit jumpCount brancheCount : ℤ) (uNow : ℕ) (downLink : Option (List ℕ)) :
    CountersRight (KadRelay.new id hopLimit jumpCount brancheCount uNow downLink) :=
  ⟨rfl, rfl, fun _ s hs => absurd hs (Option.some_ne_none s).symm⟩

theorem closest_of_excess {σ ρ : Type} {l : CKadLookup σ ρ} (h : closestExcess l = 0) :
    l.closestNodes = closestCount l ∧ 0 ≤ l.closestNodes := by
  have hcount : l.closestNodes = closestCount l := sub_eq_zero.mp h
  exact ⟨hcount, hcount ▸ closestCount_nonneg l⟩

/-- The settings of the examples: node 1 is closer to the target 1 than the own node 4. -/
def exampleSettings : KadRelay.Settings where
  nodeID := id
  brancheCount := 1
  requestTimeOut := 10
  ownID := 4
  retentionTime := 1000

/-- A relay asks a node, which knows no closer one and is asked for an up link. -/
def exampleRun : List KadRelay.Op :=
  [.start, .process 5 [⟨1, true, true⟩] [], .nodesAnswered 6 1 (fun _ => true) [] true]

/-- The relay before that run. -/
def exampleRelay : CKadRelay := KadRelay.new 1 1 0 1 0 none

/-- A node that does not answer, beside one that is asked for an up link. -/
def stallingRun : List KadRelay.Op :=
  [.start, .process 5 [⟨1, true, true⟩, ⟨2, true, true⟩] [],
    .nodesAnswered 14 1 (fun _ => true) [] true, .process 16 [] []]

/-- A closest node loses its connection, is asked for an up link, and loses it again. -/
def reopenedRun : List KadRelay.Op :=
  [.start, .process 5 [⟨1, true, true⟩] [], .nodesAnswered 6 1 (fun _ => true) [] false,
    .disconnect 1, .process 7 [] [⟨1, true, true⟩], .disconnect 1, .process 8 [] []]

/-- The example relay after a run, with a number of nodes that are asked at a time. -/
def exampleAfter (brancheCount : ℤ) (ops : List KadRelay.Op) : CKadRelay :=
  KadRelay.run { exampleSettings with brancheCount := brancheCount } exampleRelay ops

end NeoLoader.LookupCounters
