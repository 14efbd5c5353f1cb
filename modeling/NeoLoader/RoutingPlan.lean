import Mathlib.Algebra.Order.BigOperators.Group.List
import NeoLoader.KeyMap
import NeoLoader.RouteStats

/-!
# The plan by which a relay picks nodes

For an entity a relay keeps a table of scores that add up, with a node for each score, and makes it anew
after three seconds. A draw takes the node of the first larger score. Each node has a share of at least ten,
but the nodes are never written into the table, so no node is ever picked.
-/

namespace NeoLoader.RoutingPlan

open KeyMap KeyMap.OrderedMap RouteStats

section Plan

/-- `SRoutingStat`, as far as nodes are picked by it. -/
structure SRoutingStat where
  TimeOut : SSummWindow
  RecentlyDelivered : SSummWindow
  RecentlyLost : SSummWindow

def SRoutingStat.getTimeOut (s : SRoutingStat) : ℕ := s.TimeOut.getAverage % 2 ^ 32

def SRoutingStat.getLostRate (s : SRoutingStat) : ℕ :=
  let Total := (s.RecentlyDelivered.totalSumm + s.RecentlyLost.totalSumm) % 2 ^ 64
  if Total = 0 then 0 else 100 * s.RecentlyLost.totalSumm % 2 ^ 64 / Total % 2 ^ 32

/-- `CRelayStats` of a node, as far as nodes are picked by it. -/
structure CRelayStats (ρ : Type*) where
  /-- `GetStats().TimeOut`. -/
  TimeOut : SSummWindow
  getStat : ρ → Option SRoutingStat

structure SRoutingEntry (ν : Type*) where
  pNode : Option ν
  TimeOut : ℕ
  LostRate : ℤ

/-- `SRoutingPlan`, with a null pointer for a node that is missing. -/
structure SRoutingPlan (ν : Type*) where
  uLastUpdate : ℕ
  Routes : OrderedMap ℤ (Option ν)

variable {ρ ν : Type*}

/-- A number as an `int`. -/
def toInt (n : ℤ) : ℤ := Int.bmod n (2 ^ 32)

/-- The entry of a node, which `pNode` is not set in. -/
def routingEntry (RID : ρ) (stats : CRelayStats ρ) : SRoutingEntry ν where
  pNode := none
  TimeOut :=
    match stats.getStat RID with
    | some pStat =>
      if pStat.getTimeOut = 0 then stats.TimeOut.getAverage % 2 ^ 32 else pStat.getTimeOut
    | none => stats.TimeOut.getAverage % 2 ^ 32
  LostRate :=
    match stats.getStat RID with
    | some pStat => toInt pStat.getLostRate
    | none => 0

def bestTimeOut (Entrys : List (SRoutingEntry ν)) : ℕ :=
  Entrys.foldl (fun BestTimeOut E => if E.TimeOut < BestTimeOut then E.TimeOut else BestTimeOut) (2 ^ 32 - 1)

/-- The score of an entry. -/
def score (BestTimeOut : ℕ) (E : SRoutingEntry ν) : ℤ :=
  let Score : ℤ := if E.TimeOut = 0 then 50 else toInt (100 * BestTimeOut % 2 ^ 32 / E.TimeOut : ℕ)
  let Score := toInt (Score - E.LostRate)
  if Score < 10 then 10 else Score

/-- An entry is put into the table. -/
def addRoute (BestTimeOut : ℕ) (s : ℤ × OrderedMap ℤ (Option ν)) (E : SRoutingEntry ν) : ℤ × OrderedMap ℤ (Option ν) :=
  let TotalScore := toInt (s.1 + score BestTimeOut E)
  (TotalScore, s.2.insert TotalScore E.pNode)

/-- The table of some entries. -/
def routes (Entrys : List (SRoutingEntry ν)) : OrderedMap ℤ (Option ν) :=
  (Entrys.foldl (addRoute (bestTimeOut Entrys)) (0, empty)).2

/-- What a draw gives: the entry of the first larger score. It is missing if there is none. -/
def draw (Routes : OrderedMap ℤ (Option ν)) (iRand : ℤ) : Option (Option ν) :=
  (Routes.entries.find? fun e => iRand < e.1).map Prod.snd

/-- The nodes of a relay, in the order of the map. -/
abbrev Nodes (ρ ν : Type*) := List (ν × CRelayStats ρ)

/-- The plan after it was made anew, if that is due. -/
def updatePlan (m_Nodes : Nodes ρ ν) (RID : ρ) (CurTick : ℕ) (plan : SRoutingPlan ν) : SRoutingPlan ν :=
  if plan.Routes.entries = [] ∨ (CurTick + 2 ^ 64 - plan.uLastUpdate) % 2 ^ 64 > 3 * 1000 then
    ⟨CurTick, routes (m_Nodes.map fun J => routingEntry RID J.2)⟩
  else plan

/-- What `SelectNode` gives by a plan, with a number from `rand`. It is missing if the draw falls outside
of the table. -/
def pick (plan : SRoutingPlan ν) (rand : ℕ) : Option (Option ν) :=
  match plan.Routes.entries.getLast? with
  | none => some none
  | some (MaxVal, _) => if MaxVal = 0 then none else draw plan.Routes ((rand : ℤ).tmod MaxVal)

/-- `CFrameRelay::SelectNode`: what it gives, and the plans after it. -/
def selectNode [DecidableEq ρ] (m_RoutingCache : ρ → SRoutingPlan ν) (m_Nodes : Nodes ρ ν) (RID : ρ)
    (CurTick rand : ℕ) : Option (Option ν) × (ρ → SRoutingPlan ν) :=
  let RoutingPlan := updatePlan m_Nodes RID CurTick (m_RoutingCache RID)
  (pick RoutingPlan rand, Function.update m_RoutingCache RID RoutingPlan)

end Plan

section Shares

variable {ρ ν : Type*}

theorem toInt_eq {n : ℤ} (hlow : -2 ^ 31 ≤ n) (hhigh : n < 2 ^ 31) : toInt n = n := by
  rw [toInt]
  apply Int.bmod_eq_of_le
  · simpa using hlow
  · simpa using hhigh

/-- The best timeout is no larger than the others. -/
theorem bestTimeOut_le {Entrys : List (SRoutingEntry ν)} {E : SRoutingEntry ν} (h : E ∈ Entrys) :
    bestTimeOut Entrys ≤ E.TimeOut := by
  have hle : ∀ (l : List (SRoutingEntry ν)) (t : ℕ),
      (l.foldl (fun BestTimeOut E => if E.TimeOut < BestTimeOut then E.TimeOut else BestTimeOut) t ≤ t) ∧
        ∀ E ∈ l, l.foldl (fun BestTimeOut E => if E.TimeOut < BestTimeOut then E.TimeOut
          else BestTimeOut) t ≤ E.TimeOut := by
    intro l
    induction l with
    | nil => simp
    | cons a l ih =>
      intro t
      have ha := ih (if a.TimeOut < t then a.TimeOut else t)
      have hmin : (if a.TimeOut < t then a.TimeOut else t) ≤ t ∧
          (if a.TimeOut < t then a.TimeOut else t) ≤ a.TimeOut := by
        split <;> omega
      rw [List.foldl_cons]
      refine ⟨ha.1.trans hmin.1, ?_⟩
      intro E hE
      rcases List.mem_cons.mp hE with rfl | hE
      · exact ha.1.trans hmin.2
      · exact ha.2 E hE
  exact (hle Entrys _).2 E h

/-- A score is between ten and a hundred. -/
theorem score_bounds {BestTimeOut : ℕ} {E : SRoutingEntry ν} (hbest : BestTimeOut ≤ E.TimeOut)
    (hlost : 0 ≤ E.LostRate ∧ E.LostRate ≤ 100) : 10 ≤ score BestTimeOut E ∧ score BestTimeOut E ≤ 100 := by
  have hscore : ∃ n : ℤ, 0 ≤ n ∧ n ≤ 100 ∧
      (if E.TimeOut = 0 then 50 else toInt (100 * BestTimeOut % 2 ^ 32 / E.TimeOut : ℕ)) = n := by
    by_cases hzero : E.TimeOut = 0
    · exact ⟨50, by norm_num, by norm_num, by simp [hzero]⟩
    · have hdiv : 100 * BestTimeOut % 2 ^ 32 / E.TimeOut ≤ 100 := by
        apply Nat.div_le_of_le_mul
        calc 100 * BestTimeOut % 2 ^ 32 ≤ 100 * BestTimeOut := Nat.mod_le _ _
          _ ≤ E.TimeOut * 100 := by omega
      rw [if_neg hzero]
      generalize 100 * BestTimeOut % 2 ^ 32 / E.TimeOut = n at hdiv ⊢
      exact ⟨n, Int.natCast_nonneg n, by omega, toInt_eq (by omega) (by omega)⟩
  obtain ⟨n, hlow, hhigh, hn⟩ := hscore
  simp only [score, hn]
  rw [toInt_eq (by omega) (by omega)]
  split <;> omega

variable {BestTimeOut : ℕ} {Entrys : List (SRoutingEntry ν)}

/-- The table of some entries that follow on a score. -/
def sharesFrom (BestTimeOut : ℕ) : ℤ → List (SRoutingEntry ν) → List (ℤ × Option ν)
  | _, [] => []
  | t, E :: Entrys =>
    (t + score BestTimeOut E, E.pNode) :: sharesFrom BestTimeOut (t + score BestTimeOut E) Entrys

/-- As long as the scores do not overflow, each entry is put in behind those before it. -/
theorem entries_addRoute (hscore : ∀ E ∈ Entrys, 10 ≤ score BestTimeOut E ∧ score BestTimeOut E ≤ 100) {t : ℤ}
    {m : OrderedMap ℤ (Option ν)} (hm : ∀ e ∈ m.entries, e.1 ≤ t) (ht : 0 ≤ t)
    (hsum : t + 100 * Entrys.length < 2 ^ 31) :
    (Entrys.foldl (addRoute BestTimeOut) (t, m)).2.entries = m.entries ++ sharesFrom BestTimeOut t Entrys := by
  induction Entrys generalizing t m with
  | nil => exact (List.append_nil _).symm
  | cons E Entrys ih =>
    obtain ⟨hlow, hhigh⟩ := hscore E List.mem_cons_self
    rw [List.length_cons] at hsum
    push_cast at hsum
    have htotal : toInt (t + score BestTimeOut E) = t + score BestTimeOut E := toInt_eq (by omega) (by omega)
    have hentries : (m.insert (t + score BestTimeOut E) E.pNode).entries =
        m.entries ++ [(t + score BestTimeOut E, E.pNode)] :=
      insertEntry_last (fun e he => lt_of_le_of_lt (hm e he) (by omega)) _
    have hrest := fun E hE => hscore E (List.mem_cons_of_mem _ hE)
    rw [List.foldl_cons, addRoute, htotal, ih hrest ?_ (by omega) (by omega), hentries, List.append_assoc, sharesFrom,
      List.singleton_append]
    intro e he
    rw [hentries, List.mem_append, List.mem_singleton] at he
    rcases he with he | rfl
    · have hle := hm e he
      omega
    · exact le_rfl

/-- A draw below the score of an entry gives it, if it is not below the score of the one before. -/
theorem find_sharesFrom {before behind : List (SRoutingEntry ν)} {E : SRoutingEntry ν}
    (hscore : ∀ e ∈ before, 10 ≤ score BestTimeOut e) {t iRand : ℤ}
    (hlow : t + (before.map (score BestTimeOut)).sum ≤ iRand)
    (hhigh : iRand < t + (before.map (score BestTimeOut)).sum + score BestTimeOut E) :
    ((sharesFrom BestTimeOut t (before ++ E :: behind)).find? fun e => iRand < e.1).map Prod.snd = some E.pNode := by
  induction before generalizing t with
  | nil =>
    rw [List.map_nil, List.sum_nil, Int.add_zero] at hhigh
    rw [List.nil_append, sharesFrom, List.find?_cons_of_pos (by simpa using hhigh), Option.map_some]
  | cons first before ih =>
    rw [List.map_cons, List.sum_cons, ← Int.add_assoc] at hlow hhigh
    have hrest : 0 ≤ (before.map (score BestTimeOut)).sum := List.sum_nonneg fun n hn => by
      obtain ⟨e, he, rfl⟩ := List.mem_map.mp hn
      have hten := hscore e (List.mem_cons_of_mem _ he)
      omega
    have hnot : ¬ iRand < t + score BestTimeOut first := by omega
    rw [List.cons_append, sharesFrom, List.find?_cons_of_neg (by simpa using hnot)]
    exact ih (fun e he => hscore e (List.mem_cons_of_mem _ he)) hlow hhigh

/-- Each entry of a table has a score between ten and a hundred, and as many draws give it, those that follow on the
draws for the entries before it. -/
theorem routes_shares {before behind : List (SRoutingEntry ν)} {E : SRoutingEntry ν}
    (hlost : ∀ e ∈ before ++ E :: behind, 0 ≤ e.LostRate ∧ e.LostRate ≤ 100)
    (hcount : 100 * (before ++ E :: behind).length < 2 ^ 31) :
    (10 ≤ score (bestTimeOut (before ++ E :: behind)) E ∧ score (bestTimeOut (before ++ E :: behind)) E ≤ 100) ∧
      ∀ iRand, (before.map (score (bestTimeOut (before ++ E :: behind)))).sum ≤ iRand →
        iRand < (before.map (score (bestTimeOut (before ++ E :: behind)))).sum +
          score (bestTimeOut (before ++ E :: behind)) E →
            draw (routes (before ++ E :: behind)) iRand = some E.pNode := by
  have hscore : ∀ e ∈ before ++ E :: behind, 10 ≤ score (bestTimeOut (before ++ E :: behind)) e ∧
      score (bestTimeOut (before ++ E :: behind)) e ≤ 100 := fun e he => score_bounds (bestTimeOut_le he) (hlost e he)
  refine ⟨hscore E (List.mem_append_right _ List.mem_cons_self), fun iRand hlow hhigh => ?_⟩
  rw [draw, routes, entries_addRoute hscore (by simp [empty]) le_rfl (by omega)]
  refine find_sharesFrom (fun e he => (hscore e (List.mem_append_left _ he)).1) ?_ ?_
  · rwa [Int.zero_add]
  · rwa [Int.zero_add]

/-- Of two entries the second has the draws from fifty on. -/
theorem routes_shares_two : draw (routes [⟨some 1, 0, 0⟩, ⟨some 2, 0, 20⟩]) 60 = some (some 2) := by
  have hshares := @routes_shares ℕ [⟨some 1, 0, 0⟩] [] ⟨some 2, 0, 20⟩ (by decide) (by decide)
  exact hshares.2 60 (by decide) (by decide)

end Shares

section Runs

variable {ρ ν : Type*}

/-- A call of `SelectNode`, with the nodes and the time that there are then. -/
structure Request (ρ ν : Type*) where
  m_Nodes : Nodes ρ ν
  RID : ρ
  /-- `GetCurTick`. -/
  CurTick : ℕ
  /-- What `rand` gives. -/
  rand : ℕ

/-- The plans of a relay at first. -/
def start : ρ → SRoutingPlan ν := fun _ => ⟨0, empty⟩

/-- What calls give, one after the other. -/
def run [DecidableEq ρ] (m_RoutingCache : ρ → SRoutingPlan ν) : List (Request ρ ν) →
    List (Request ρ ν × Option (Option ν))
  | [] => []
  | r :: requests =>
    let s := selectNode m_RoutingCache r.m_Nodes r.RID r.CurTick r.rand
    (r, s.1) :: run s.2 requests

/-- What a call gives is one of the nodes. -/
def Selected (r : Request ρ ν) (outcome : Option (Option ν)) : Prop :=
  ∃ J ∈ r.m_Nodes, outcome = some (some J.1)

/-- A table without nodes. -/
def NoNode (m : OrderedMap ℤ (Option ν)) : Prop := ∀ e ∈ m.entries, e.2 = none

/-- A table of entries without nodes has none. -/
theorem noNode_foldl {BestTimeOut : ℕ} {Entrys : List (SRoutingEntry ν)} (h : ∀ E ∈ Entrys, E.pNode = none)
    {t : ℤ} {m : OrderedMap ℤ (Option ν)} (hm : NoNode m) : NoNode (Entrys.foldl (addRoute BestTimeOut) (t, m)).2 := by
  induction Entrys generalizing t m with
  | nil => exact hm
  | cons E Entrys ih =>
    rw [List.foldl_cons]
    refine ih (fun E hE => h E (List.mem_cons_of_mem _ hE)) ?_
    intro e he
    rcases mem_insert.mp he with rfl | ⟨he, -⟩
    · exact h E List.mem_cons_self
    · exact hm e he

theorem noNode_updatePlan (m_Nodes : Nodes ρ ν) (RID : ρ) (CurTick : ℕ) {plan : SRoutingPlan ν}
    (h : NoNode plan.Routes) : NoNode (updatePlan m_Nodes RID CurTick plan).Routes := by
  rw [updatePlan]
  split
  · refine noNode_foldl ?_ (by simp [NoNode, empty])
    intro E hE
    obtain ⟨J, -, rfl⟩ := List.mem_map.mp hE
    rfl
  · exact h

/-- No node is picked from a plan without nodes. -/
theorem pick_none {plan : SRoutingPlan ν} (h : NoNode plan.Routes) (rand : ℕ) (node : ν) :
    pick plan rand ≠ some (some node) := by
  rw [pick]
  split
  · simp
  · split
    · simp
    · intro heq
      obtain ⟨e, he, hnode⟩ := Option.map_eq_some_iff.mp heq
      have hnone := h e (List.mem_of_find?_eq_some he)
      simp [hnone] at hnode

/-- In no run does `SelectNode` give one of the nodes. -/
theorem run_selects_none [DecidableEq ρ] (requests : List (Request ρ ν)) :
    ∀ o ∈ run (start : ρ → SRoutingPlan ν) requests, ¬ Selected o.1 o.2 := by
  have hrun : ∀ m_RoutingCache : ρ → SRoutingPlan ν, (∀ RID, NoNode (m_RoutingCache RID).Routes) →
      ∀ o ∈ run m_RoutingCache requests, ¬ Selected o.1 o.2 := by
    induction requests with
    | nil => simp [run]
    | cons r requests ih =>
      intro m_RoutingCache h o ho
      have hplan := noNode_updatePlan r.m_Nodes r.RID r.CurTick (h r.RID)
      rcases List.mem_cons.mp ho with rfl | ho
      · rintro ⟨J, -, heq⟩
        exact pick_none hplan r.rand J.1 heq
      · refine ih _ ?_ o ho
        intro RID
        by_cases hRID : RID = r.RID
        · subst hRID
          simpa [selectNode] using hplan
        · simpa [selectNode, Function.update_of_ne hRID] using h RID
  exact hrun start fun _ => by simp [NoNode, start, empty]

/-- A relay with one node, of which nothing is known. -/
def oneNode : Nodes Unit Unit := [((), ⟨⟨0, [], 0⟩, fun _ => none⟩)]

/-- A call for the one node. -/
theorem oneNode_selects_none : ∃ o ∈ run (start : Unit → SRoutingPlan Unit) [⟨oneNode, (), 5, 7⟩], ¬ Selected o.1 o.2 :=
  ⟨(⟨oneNode, (), 5, 7⟩, _), List.mem_cons_self, run_selects_none [⟨oneNode, (), 5, 7⟩] _ List.mem_cons_self⟩

/-- With one node the table has its share of fifty, and the draw gives a null pointer. -/
theorem selectNode_null : (updatePlan oneNode () 5 (start ())).Routes.entries = [(50, none)] ∧
      (selectNode start oneNode () 5 7).1 = some none ∧
      ¬ Selected ⟨oneNode, (), 5, 7⟩ (selectNode start oneNode () 5 7).1 := by
  have hnull : (selectNode start oneNode () 5 7).1 = some none := by decide
  refine ⟨by decide, hnull, ?_⟩
  rintro ⟨J, -, heq⟩
  simp [hnull] at heq

end Runs

end NeoLoader.RoutingPlan
