import Mathlib.Tactic.Linarith

/-!
# Hop limits and jump counts

A request that is passed on carries one hop less and one jump less, both as bytes and
left out when they are used up. The receiver of an operation reads them back into the
fields they came from, the receiver of a route reads each into the other one, so that a
route makes random jumps that nobody asked for.
-/

namespace NeoLoader.HopLimits

/-- The limits of a lookup. -/
structure CKadLookup where
  hopLimit : ℕ
  jumpCount : ℕ
  deriving DecidableEq, Repr

/-- The limits a node has configured. -/
structure Cfg where
  maxHopLimit : ℕ
  maxJumpCount : ℕ
  deriving DecidableEq, Repr

/-- The values a node starts with. -/
def Cfg.default : Cfg := ⟨25, 5⟩

/-- The fields of a request that carry limits. -/
structure Request where
  hops : Option ℕ
  jmps : Option ℕ
  deriving DecidableEq, Repr

def CKadLookup.setHopLimit (cfg : Cfg) (hopLimit : ℕ) (l : CKadLookup) : CKadLookup :=
  { l with hopLimit := min hopLimit cfg.maxHopLimit }

def CKadLookup.setJumpCount (cfg : Cfg) (jumpCount : ℕ) (l : CKadLookup) : CKadLookup :=
  { l with jumpCount := min jumpCount cfg.maxJumpCount }

/-- A lookup as its constructor leaves it. -/
def CKadLookup.new : CKadLookup := ⟨1, 0⟩

/-- The block that puts limits in a request, with both converted to `uint8` before they
are decremented. -/
def putLimits (l : CKadLookup) : Request :=
  let hopLimit := l.hopLimit % 2 ^ 8
  if hopLimit > 1 then
    let hopLimit := hopLimit - 1
    let jumpCount := l.jumpCount % 2 ^ 8
    ⟨some hopLimit, if jumpCount > 1 then some (min (jumpCount - 1) hopLimit) else none⟩
  else ⟨none, none⟩

/-- `CKadHandler::SendRouteReq`. -/
def sendRouteReq (l : CKadLookup) : Request := putLimits l

/-- `CKadHandler::SendProxyReq`. -/
def sendProxyReq (l : CKadLookup) : Request := putLimits l

/-- `CKadHandler::HandleRouteReq` of a new relay. -/
def handleRouteReq (cfg : Cfg) (routeReq : Request) : CKadLookup :=
  (CKadLookup.new.setHopLimit cfg (routeReq.jmps.getD 0)).setJumpCount cfg (routeReq.hops.getD 0)

/-- `CKadHandler::HandleProxyReq` of a new proxy. -/
def handleProxyReq (cfg : Cfg) (lookupReq : Request) : CKadLookup :=
  (CKadLookup.new.setHopLimit cfg (lookupReq.hops.getD 0)).setJumpCount cfg (lookupReq.jmps.getD 0)

/-- The two protocols. -/
inductive Kind where
  /-- Routes. -/
  | route
  /-- Operations. -/
  | proxy
  deriving DecidableEq, Repr

/-- The limits at a node that a lookup is forwarded to. -/
def forward (cfg : Cfg) (l : CKadLookup) : Kind → CKadLookup
  | .route => handleRouteReq cfg (sendRouteReq l)
  | .proxy => handleProxyReq cfg (sendProxyReq l)

/-- Something holds on every hop of a chain, of its receiver and the limits of its sender. -/
def EveryHop (kind : Kind) (P : Cfg → CKadLookup → Prop) : CKadLookup → List Cfg → Prop
  | _, [] => True
  | l, cfg :: cfgs => P cfg l ∧ EveryHop kind P (forward cfg l kind) cfgs

/-- The hops of a chain whose sender picks a random node: those with jumps left. -/
def randomJumps (kind : Kind) : CKadLookup → List Cfg → ℕ
  | _, [] => 0
  | l, cfg :: cfgs =>
    (if l.jumpCount > 0 then 1 else 0) + randomJumps kind (forward cfg l kind) cfgs

/-- What a hop may leave of the jump count: one less, within the hops that are left and
the receiver's own maximum. -/
def jumpsLeft (cfg : Cfg) (l : CKadLookup) : ℕ :=
  min (l.jumpCount - 1) (min (l.hopLimit - 1) cfg.maxJumpCount)

/-- A hop takes from the hop limit and one from the jump count, which stays within the
hop limit. -/
def HopOk (cfg : Cfg) (l l' : CKadLookup) : Prop :=
  l'.hopLimit < l.hopLimit ∧ l'.jumpCount = jumpsLeft cfg l ∧ l'.jumpCount ≤ l'.hopLimit

/-- The limits are kept along a chain of nodes. -/
def LimitsKept (kind : Kind) (l : CKadLookup) (cfgs : List Cfg) : Prop :=
  EveryHop kind (fun cfg l => HopOk cfg l (forward cfg l kind)) l cfgs ∧
    cfgs.length ≤ l.hopLimit ∧ randomJumps kind l cfgs ≤ l.jumpCount

/-- When a hop does what it should: there is a hop left, the bytes hold what has to be
kept, and so does the receiver's hop limit. On a route the jumps left are as many as the
hops left, or more than the receiver admits. -/
def Meets (kind : Kind) (cfg : Cfg) (l : CKadLookup) : Prop :=
  1 ≤ l.hopLimit ∧ jumpsLeft cfg l ≤ l.hopLimit % 2 ^ 8 - 1 ∧
    match kind with
    | .route => min (l.hopLimit % 2 ^ 8 - 1) cfg.maxJumpCount ≤ min (l.jumpCount % 2 ^ 8 - 1) cfg.maxHopLimit
    | .proxy => jumpsLeft cfg l ≤ min (l.jumpCount % 2 ^ 8 - 1) cfg.maxHopLimit

variable (l : CKadLookup)

theorem putLimits_hops : (putLimits l).hops.getD 0 = l.hopLimit % 2 ^ 8 - 1 := by
  rw [putLimits, apply_ite Request.hops]
  split_ifs with h
  · simp only [Option.getD_some]
  · simp only [Option.getD_none]
    omega

theorem putLimits_jmps : (putLimits l).jmps.getD 0 = min (l.jumpCount % 2 ^ 8 - 1) (l.hopLimit % 2 ^ 8 - 1) := by
  simp only [putLimits]
  split_ifs with h hj
  · simp only [Option.getD_some]
  · simp only [Option.getD_none]
    omega
  · simp only [Option.getD_none]
    omega

theorem forward_proxy (cfg : Cfg) (l : CKadLookup) : forward cfg l .proxy =
    ⟨min (l.hopLimit % 2 ^ 8 - 1) cfg.maxHopLimit,
      min (min (l.jumpCount % 2 ^ 8 - 1) (l.hopLimit % 2 ^ 8 - 1)) cfg.maxJumpCount⟩ := by
  simp only [forward, handleProxyReq, sendProxyReq, CKadLookup.setHopLimit,
    CKadLookup.setJumpCount, putLimits_hops, putLimits_jmps]

theorem forward_route (cfg : Cfg) (l : CKadLookup) : forward cfg l .route =
    ⟨min (min (l.jumpCount % 2 ^ 8 - 1) (l.hopLimit % 2 ^ 8 - 1)) cfg.maxHopLimit,
      min (l.hopLimit % 2 ^ 8 - 1) cfg.maxJumpCount⟩ := by
  simp only [forward, handleRouteReq, sendRouteReq, CKadLookup.setHopLimit,
    CKadLookup.setJumpCount, putLimits_hops, putLimits_jmps]

/-- A route's hop in terms of numbers: `h'` and `j'` are the bytes that are sent, `H` and `M` the
maxima of the receiver. -/
theorem route_hop {h j h' j' H M : ℕ} (hh : h' ≤ h) (hj : j' ≤ j) :
    (min (min (j' - 1) (h' - 1)) H < h ∧ min (h' - 1) M = min (j - 1) (min (h - 1) M) ∧
      min (h' - 1) M ≤ min (min (j' - 1) (h' - 1)) H) ↔
    1 ≤ h ∧ min (j - 1) (min (h - 1) M) ≤ h' - 1 ∧ min (h' - 1) M ≤ min (j' - 1) H := by
  have hhops : h' - 1 ≤ h - 1 := Nat.sub_le_sub_right hh 1
  have hjumps : j' - 1 ≤ j - 1 := Nat.sub_le_sub_right hj 1
  constructor
  · rintro ⟨hless, heq, hle⟩
    rw [le_min_iff, le_min_iff] at hle
    exact ⟨(Nat.zero_le _).trans_lt hless, heq ▸ min_le_left _ _, le_min hle.1.1 hle.2⟩
  · rintro ⟨hone, hle, hroute⟩
    rw [le_min_iff] at hroute
    have hjumpsLeft : min (j - 1) (min (h - 1) M) ≤ M := (min_le_right _ _).trans (min_le_right _ _)
    refine ⟨?_, le_antisymm (le_min (hroute.1.trans hjumps) (min_le_min_right _ hhops))
      (le_min hle hjumpsLeft), le_min (le_min hroute.1 (min_le_left _ _)) hroute.2⟩
    calc min (min (j' - 1) (h' - 1)) H ≤ h' - 1 := (min_le_left _ _).trans (min_le_right _ _)
      _ ≤ h - 1 := hhops
      _ < h := Nat.sub_lt hone Nat.one_pos

/-- An operation's hop in terms of numbers. -/
theorem proxy_hop {h j h' j' H M : ℕ} (hh : h' ≤ h) (hj : j' ≤ j) :
    (min (h' - 1) H < h ∧ min (min (j' - 1) (h' - 1)) M = min (j - 1) (min (h - 1) M) ∧
      min (min (j' - 1) (h' - 1)) M ≤ min (h' - 1) H) ↔
    1 ≤ h ∧ min (j - 1) (min (h - 1) M) ≤ h' - 1 ∧ min (j - 1) (min (h - 1) M) ≤ min (j' - 1) H := by
  have hhops : h' - 1 ≤ h - 1 := Nat.sub_le_sub_right hh 1
  have hjumps : j' - 1 ≤ j - 1 := Nat.sub_le_sub_right hj 1
  constructor
  · rintro ⟨hless, heq, hle⟩
    rw [heq, le_min_iff] at hle
    refine ⟨(Nat.zero_le _).trans_lt hless, hle.1, le_min ?_ hle.2⟩
    rw [← heq]
    exact (min_le_left _ _).trans (min_le_left _ _)
  · rintro ⟨hone, hle, hproxy⟩
    rw [le_min_iff] at hproxy
    have hjumpsLeft : min (j - 1) (min (h - 1) M) ≤ M := (min_le_right _ _).trans (min_le_right _ _)
    have heq : min (min (j' - 1) (h' - 1)) M = min (j - 1) (min (h - 1) M) := by
      refine le_antisymm ?_ (le_min (le_min hproxy.1 hle) hjumpsLeft)
      rw [min_assoc]
      exact min_le_min hjumps (min_le_min_right _ hhops)
    refine ⟨?_, heq, heq ▸ le_min hle hproxy.2⟩
    calc min (h' - 1) H ≤ h' - 1 := min_le_left _ _
      _ ≤ h - 1 := hhops
      _ < h := Nat.sub_lt hone Nat.one_pos

/-- One hop does what it should exactly under its condition. -/
theorem hopOk_iff (kind : Kind) (cfg : Cfg) (l : CKadLookup) : HopOk cfg l (forward cfg l kind) ↔ Meets kind cfg l := by
  have hh : l.hopLimit % 2 ^ 8 ≤ l.hopLimit := Nat.mod_le _ _
  have hj : l.jumpCount % 2 ^ 8 ≤ l.jumpCount := Nat.mod_le _ _
  cases kind with
  | route =>
    rw [forward_route]
    exact route_hop hh hj
  | proxy =>
    rw [forward_proxy]
    exact proxy_hop hh hj

theorem everyHop_congr {kind : Kind} {P Q : Cfg → CKadLookup → Prop}
    (h : ∀ cfg l, P cfg l ↔ Q cfg l) (l : CKadLookup) (cfgs : List Cfg) :
    EveryHop kind P l cfgs ↔ EveryHop kind Q l cfgs := by
  induction cfgs generalizing l with
  | nil => exact Iff.rfl
  | cons cfg cfgs ih => simp only [EveryHop, h cfg l, ih]

section

variable {kind : Kind} (cfgs : List Cfg) (h : EveryHop kind (fun cfg l => HopOk cfg l (forward cfg l kind)) l cfgs)

include cfgs h

theorem length_le_hopLimit : cfgs.length ≤ l.hopLimit := by
  induction cfgs generalizing l with
  | nil => exact Nat.zero_le _
  | cons cfg cfgs ih =>
    have hrest := ih _ h.2
    have hless := h.1.1
    simp only [List.length_cons]
    omega

/-- A chain that loses a jump on each hop makes no more random jumps than its count. -/
theorem randomJumps_le_jumpCount : randomJumps kind l cfgs ≤ l.jumpCount := by
  induction cfgs generalizing l with
  | nil => exact Nat.zero_le _
  | cons cfg cfgs ih =>
    have hrest := ih _ h.2
    have hjumps : (forward cfg l kind).jumpCount ≤ l.jumpCount - 1 := by
      rw [h.1.2.1, jumpsLeft]
      exact min_le_left _ _
    simp only [randomJumps]
    split_ifs with hl <;> omega

end

/-- The limits are kept along a chain exactly when each of its hops meets the condition. -/
theorem limitsKept_iff (kind : Kind) (l : CKadLookup) (cfgs : List Cfg) :
    LimitsKept kind l cfgs ↔ EveryHop kind (Meets kind) l cfgs := by
  rw [← everyHop_congr (hopOk_iff kind)]
  constructor
  · intro h
    exact h.1
  · intro h
    exact ⟨h, length_le_hopLimit l cfgs h, randomJumps_le_jumpCount l cfgs h⟩

/-- A route of ten hops without random jumps makes one at its first relay. -/
theorem route_jumps : ¬ LimitsKept .route ⟨10, 0⟩ [Cfg.default, Cfg.default] := by
  intro h
  have hjumps : (forward Cfg.default ⟨10, 0⟩ .route).jumpCount = jumpsLeft Cfg.default ⟨10, 0⟩ := h.1.1.2.1
  exact absurd hjumps (by decide)

end NeoLoader.HopLimits
