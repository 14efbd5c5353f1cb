import NeoLoader.ClosestNodes
import NeoLoader.KeyMapTotals

/-!
# Iterating over the nodes closest to a target

The position of an iterator is the path to the bin that was visited last: which side was taken at each fork, and
whether the other side was taken before. The steps of the path are held by reference while the path grows, so
that a path for which there is no room leaves these references behind.
-/

namespace NeoLoader.ClosestIterator

open KeyMap KeyMap.OrderedMap BitPrefix RoutingZone CRoutingZone ClosestNodes

section Operations

variable {ν : Type*}

/-- A byte of `Path`. -/
structure EPath where
  eLeft : Bool
  eAux : Bool
  deriving DecidableEq, Repr

structure SIterator (ν : Type*) where
  MinNodes : ℤ
  GivenNodes : ℤ
  TreeDepth : ℤ
  Path : List EPath
  /-- The room that `Path` has. -/
  Capacity : ℕ
  TempNodes : OrderedMap ℕ ν

/-- The constructor of `SIterator`. -/
def SIterator.new (iCount : ℤ) : SIterator ν := ⟨iCount, 0, 0, [], 31, OrderedMap.empty⟩

/-- `push_back`, which moves the path if there is no room. -/
def SIterator.pushBack (step : EPath) (Iter : SIterator ν) : SIterator ν :=
  { Iter with
    Path := Iter.Path ++ [step]
    Capacity := if Iter.Path.length < Iter.Capacity then Iter.Capacity else 2 * Iter.Capacity + 1 }

/-- The step of the path at a fork is another. -/
def SIterator.setStep (here : ℕ) (step : EPath) (Iter : SIterator ν) : SIterator ν :=
  { Iter with Path := Iter.Path.set here step }

/-- `TempNodes.size() < MinNodes`, where the number is converted to an unsigned one. -/
def SIterator.needsMore (Iter : SIterator ν) : Bool := (Iter.TempNodes.size : ℤ) < Iter.MinNodes % 2 ^ 64

variable (GetID : ν → CUInt128) (rootID uTargetID : CUInt128)

/-- A zone is visited on one side. If it is exhausted then its step is read again, by the reference that was taken
before. -/
def visit (gather : Bool → SIterator ν → Option (Bool × SIterator ν)) (here : ℕ) (Iter : SIterator ν) :
    Option (Bool × EPath × SIterator ν) :=
  (Iter.Path[here]?).bind fun uPath =>
    (gather uPath.eLeft Iter).bind fun result =>
      if result.1 = false then some (false, uPath, result.2)
      else if result.2.Capacity = Iter.Capacity then
        (result.2.Path[here]?).map fun uPath => (result.1, uPath, result.2)
      else none

/-- The path is exhausted, and its step is taken back. -/
def closePath (Iter : SIterator ν) : Bool × SIterator ν :=
  if Iter.TreeDepth = Iter.Path.length then (true, { Iter with Path := Iter.Path.dropLast })
  else (false, Iter)

/-- `CRoutingFork::GatherNode` from the step of the path on. The other side is taken right away if there are not
enough nodes. -/
def gatherStep (gather : Bool → SIterator ν → Option (Bool × SIterator ν)) (here : ℕ) (Iter : SIterator ν) :
    Option (Bool × SIterator ν) :=
  let leave := fun (result : Bool × SIterator ν) =>
    (result.1, { result.2 with TreeDepth := result.2.TreeDepth - 1 })
  (visit gather here { Iter with TreeDepth := Iter.TreeDepth + 1 }).bind fun (exhausted, uPath, Iter) =>
    if exhausted then
      if uPath.eAux = false then
        let Iter := Iter.setStep here ⟨!uPath.eLeft, true⟩
        if Iter.needsMore then
          (visit gather here Iter).map fun (exhausted, _, Iter) =>
            leave (if exhausted then closePath Iter else (false, Iter))
        else some (leave (false, Iter))
      else some (leave (closePath Iter))
    else some (leave (false, Iter))

def gatherNode (eligible : ν → Bool) : CRoutingZone ν → SIterator ν → Option (Bool × SIterator ν)
  | bin uLevel uZoneIndex Nodes pRandomLookup, Iter =>
    some (true, { Iter with
      TempNodes := getClosestNodes GetID rootID uTargetID eligible (2 ^ 32 - 1)
        (bin uLevel uZoneIndex Nodes pRandomLookup) Iter.TempNodes })
  | fork uLevel _ Left Right, Iter =>
    gatherStep (fun eLeft Iter => if eLeft then gatherNode eligible Left Iter else gatherNode eligible Right Iter)
      Iter.TreeDepth.toNat
      (if Iter.TreeDepth = Iter.Path.length then Iter.pushBack ⟨getBit rootID uLevel uTargetID, false⟩
        else Iter)

/-- `GetRandomNode`, with the numbers that `rand` returns. -/
def getRandomNode (eligible : ν → Bool) : CRoutingZone ν → List ℕ → Option ν × List ℕ
  | bin _ _ Nodes _, rands =>
    (((List.range Nodes.length).filterMap fun i =>
      (Nodes[(rands.headD 0 + i) % Nodes.length]?).filter eligible).head?, rands.tail)
  | fork _ _ Left Right, rands =>
    if rands.headD 0 % 2 = 1 then
      match getRandomNode eligible Left rands.tail with
      | (some pNode, rands) => (some pNode, rands)
      | (none, rands) => getRandomNode eligible Right rands
    else
      match getRandomNode eligible Right rands.tail with
      | (some pNode, rands) => (some pNode, rands)
      | (none, rands) => getRandomNode eligible Left rands

def NODE_DEFAULT_CLASS : ℤ := 3

/-- The tries of `GetClosestNode` to come up with a random node that was not yet given. -/
def tryRandom (randomOk : ν → Bool) (zone : CRoutingZone ν) : ℕ → List ℕ → SIterator ν → Option ν × SIterator ν
  | 0, _, Iter => (none, Iter)
  | tries + 1, rands, Iter =>
    match getRandomNode randomOk zone rands with
    | (none, rands) => tryRandom randomOk zone tries rands Iter
    | (some pNode, rands) =>
      if (Iter.TempNodes.get (distance GetID uTargetID pNode)).isSome then
        tryRandom randomOk zone tries rands Iter
      else
        (some pNode, { Iter with
          TempNodes := Iter.TempNodes.insert (distance GetID uTargetID pNode) pNode })

/-- The next bucket is taken, unless there are enough nodes or no more. -/
def nextBucket (eligible : ν → Bool) (zone : CRoutingZone ν) (Iter : SIterator ν) : Option (SIterator ν) :=
  if Iter.needsMore && Iter.TreeDepth ≠ -1 then
    (gatherNode GetID rootID uTargetID eligible zone Iter).map fun result =>
      if result.2.Path = [] then { result.2 with TreeDepth := -1 } else result.2
  else some Iter

/-- How many nodes are still to be picked by chance. -/
def nodesToPick (Iter : SIterator ν) : ℤ :=
  if Iter.MinNodes > 1 then
    if Iter.MinNodes > Iter.GivenNodes then Iter.MinNodes - Iter.GivenNodes else 1
  else Iter.MinNodes

/-- A node is taken out of those in stock. -/
def takeNode (rand : ℕ) (MinNodes : ℤ) (Iter : SIterator ν) : Option ν × SIterator ν :=
  match Iter.TempNodes.entries[if MinNodes > 1 then rand % Iter.TempNodes.size else 0]? with
  | none => (none, Iter)
  | some I => (some I.2, { Iter with
      TempNodes := Iter.TempNodes.erase I.1
      GivenNodes := Iter.GivenNodes + 1 })

/-- `CRoutingRoot::GetClosestNode`, with the numbers that `rand` returns. -/
def getClosestNode (info : SNodeInfo ν) (eProtocol : ℕ) (iMaxState : ℤ) (zone : CRoutingZone ν)
    (rands : List ℕ) (Iter : SIterator ν) : Option (Option ν × SIterator ν) :=
  if Iter.MinNodes = 0 then
    some (tryRandom GetID uTargetID (isEligible info eProtocol NODE_DEFAULT_CLASS) zone 10 rands Iter)
  else
    (nextBucket GetID rootID uTargetID (isEligible info eProtocol iMaxState) zone Iter).map
      (takeNode (rands.headD 0) (nodesToPick Iter))

/-- Calls of `GetClosestNode` with one iterator, and what they return. -/
def getNodes (info : SNodeInfo ν) (eProtocol : ℕ) (iMaxState : ℤ) (zone : CRoutingZone ν) :
    List (List ℕ) → SIterator ν → Option (List (Option ν))
  | [], _ => some []
  | rands :: calls, Iter =>
    (getClosestNode GetID rootID uTargetID info eProtocol iMaxState zone rands Iter).bind fun result =>
      (getNodes info eProtocol iMaxState zone calls result.2).map fun results => result.1 :: results

end Operations

section Path

variable {ν : Type*} {GetID : ν → CUInt128} {BucketSize : ℕ} {rootID uTargetID : CUInt128}
  {eligible : ν → Bool}

/-- The zone on a side. -/
def side (eLeft : Bool) (Left Right : CRoutingZone ν) : CRoutingZone ν := if eLeft then Left else Right

/-- The nodes that are left for an iterator with a path, in the order of its visits. -/
def remaining (rootID uTargetID : CUInt128) (eligible : ν → Bool) : CRoutingZone ν → List EPath → List ν
  | bin _ _ Nodes _, _ => Nodes.filter eligible
  | fork uLevel _ Left Right, [] =>
    if getBit rootID uLevel uTargetID then
      remaining rootID uTargetID eligible Left [] ++ remaining rootID uTargetID eligible Right []
    else remaining rootID uTargetID eligible Right [] ++ remaining rootID uTargetID eligible Left []
  | fork _ _ Left Right, step :: path =>
    (if step.eLeft then remaining rootID uTargetID eligible Left path
      else remaining rootID uTargetID eligible Right path) ++
    if step.eAux then []
    else if step.eLeft then remaining rootID uTargetID eligible Right []
    else remaining rootID uTargetID eligible Left []

/-- A path of a zone: a step that is not the second one goes to the side of the target. -/
def PathOk (rootID uTargetID : CUInt128) : CRoutingZone ν → List EPath → Prop
  | bin _ _ _ _, path => path = []
  | fork _ _ _ _, [] => True
  | fork uLevel _ Left Right, step :: path =>
    (step.eAux = false → step.eLeft = getBit rootID uLevel uTargetID) ∧
      if step.eLeft then PathOk rootID uTargetID Left path else PathOk rootID uTargetID Right path

theorem pathOk_nil (zone : CRoutingZone ν) : PathOk rootID uTargetID zone [] := by
  cases zone with
  | bin _ _ _ _ => rfl
  | fork _ _ _ _ => trivial

/-- The number of forks on the longest path. -/
def height : CRoutingZone ν → ℕ
  | bin _ _ _ _ => 0
  | fork _ _ Left Right => max (height Left) (height Right) + 1

theorem remaining_fork (uLevel : ℕ) (uZoneIndex : CUInt128) (Left Right : CRoutingZone ν) (step : EPath)
    (path : List EPath) : remaining rootID uTargetID eligible (fork uLevel uZoneIndex Left Right) (step :: path) =
      remaining rootID uTargetID eligible (side step.eLeft Left Right) path ++
        if step.eAux then [] else remaining rootID uTargetID eligible (side (!step.eLeft) Left Right) [] := by
  rw [remaining, side, side]
  cases step.eLeft <;> simp

theorem remaining_nil (uLevel : ℕ) (uZoneIndex : CUInt128) (Left Right : CRoutingZone ν) :
    remaining rootID uTargetID eligible (fork uLevel uZoneIndex Left Right) [] =
      remaining rootID uTargetID eligible (fork uLevel uZoneIndex Left Right)
        [⟨getBit rootID uLevel uTargetID, false⟩] := by
  rw [remaining, remaining]
  cases getBit rootID uLevel uTargetID <;> simp

/-- What is left are eligible nodes of the zone. -/
theorem mem_of_mem_remaining {zone : CRoutingZone ν} {path : List EPath} {q : ν}
    (h : q ∈ remaining rootID uTargetID eligible zone path) : q ∈ nodes zone := by
  induction zone generalizing path with
  | bin uLevel uZoneIndex Nodes pRandomLookup => exact List.mem_of_mem_filter h
  | fork uLevel uZoneIndex Left Right ihl ihr =>
    have hside : ∀ b path, q ∈ remaining rootID uTargetID eligible (side b Left Right) path →
        q ∈ nodes (fork uLevel uZoneIndex Left Right) := by
      intro b path hq
      cases b
      · exact List.mem_append_right _ (ihr hq)
      · exact List.mem_append_left _ (ihl hq)
    have hcons : ∀ step path, q ∈ remaining rootID uTargetID eligible (fork uLevel uZoneIndex Left Right)
        (step :: path) → q ∈ nodes (fork uLevel uZoneIndex Left Right) := by
      intro step path hq
      rw [remaining_fork] at hq
      rcases List.mem_append.mp hq with hq | hq
      · exact hside _ _ hq
      · split_ifs at hq
        · simp at hq
        · exact hside _ _ hq
    cases path with
    | nil => exact hcons _ _ (remaining_nil uLevel uZoneIndex Left Right ▸ h)
    | cons step path => exact hcons step path h

theorem remaining_perm (zone : CRoutingZone ν) :
    (remaining rootID uTargetID eligible zone []).Perm ((nodes zone).filter eligible) := by
  induction zone with
  | bin uLevel uZoneIndex Nodes pRandomLookup => exact List.Perm.refl _
  | fork uLevel uZoneIndex Left Right ihl ihr =>
    rw [remaining, nodes, List.filter_append]
    split_ifs
    · exact ihl.append ihr
    · exact (ihr.append ihl).trans List.perm_append_comm

theorem side_closer {uLevel : ℕ} {uZoneIndex : CUInt128} {Left Right : CRoutingZone ν} (hL : uLevel < 128)
    (hz : uZoneIndex.toNat < 2 ^ uLevel) (hl : ZoneOk GetID BucketSize rootID (uLevel + 1) (uZoneIndex <<< 1 + 1) Left)
    (hr : ZoneOk GetID BucketSize rootID (uLevel + 1) (uZoneIndex <<< 1) Right) {b : Bool}
    (hb : b = getBit rootID uLevel uTargetID) {p q : ν} (hp : p ∈ nodes (side b Left Right))
    (hq : q ∈ nodes (side (!b) Left Right)) : distance GetID uTargetID p < distance GetID uTargetID q := by
  have hplace := (ZoneOk.fork hL hz hl hr).children
  have hleft := getBit_left hL hz hl
  have hright := getBit_right hL hz hr
  cases b with
  | false =>
    refine distance_lt hL (hplace p (List.mem_append_right _ hp)) (hplace q (List.mem_append_left _ hq)) ?_ ?_
    · rw [hright p hp, hb]
    · rw [hleft q hq, ← hb, Bool.not_false]
  | true =>
    refine distance_lt hL (hplace p (List.mem_append_left _ hp)) (hplace q (List.mem_append_right _ hq)) ?_ ?_
    · rw [hleft p hp, hb]
    · rw [hright q hq, ← hb, Bool.not_true]

end Path

section Gathering

variable {ν : Type*} {GetID : ν → CUInt128} {BucketSize : ℕ} {rootID uTargetID : CUInt128}
  {eligible : ν → Bool}

/-- An iterator that asks for nodes. -/
def Asks (Iter : SIterator ν) : Prop := 1 ≤ Iter.MinNodes ∧ Iter.MinNodes < 2 ^ 31

variable {Iter : SIterator ν}

theorem Asks.needsMore (h : Asks Iter) : Iter.needsMore = true ↔ (Iter.TempNodes.size : ℤ) < Iter.MinNodes := by
  obtain ⟨hone, hmost⟩ := h
  rw [SIterator.needsMore, Int.emod_eq_of_lt (by omega) (by omega), decide_eq_true_eq]

/-- The nodes in stock with more of them. -/
def stock (GetID : ν → CUInt128) (uTargetID : CUInt128) (visited : List ν) (TempNodes : OrderedMap ℕ ν) :
    OrderedMap ℕ ν :=
  visited.foldl (fun m q => m.insert (distance GetID uTargetID q) q) TempNodes

theorem size_stock_le (visited : List ν) (TempNodes : OrderedMap ℕ ν) :
    (stock GetID uTargetID visited TempNodes).size ≤ TempNodes.size + visited.length := by
  induction visited generalizing TempNodes with
  | nil => exact le_rfl
  | cons q visited ih =>
    have hrest := ih (TempNodes.insert (distance GetID uTargetID q) q)
    have hone := OrderedMap.size_insert_le TempNodes (distance GetID uTargetID q) q
    rw [stock, List.foldl_cons, List.length_cons]
    rw [stock] at hrest
    omega

theorem stock_append (visited visited' : List ν) (TempNodes : OrderedMap ℕ ν) :
    stock GetID uTargetID (visited ++ visited') TempNodes =
      stock GetID uTargetID visited' (stock GetID uTargetID visited TempNodes) :=
  List.foldl_append

/-- What is left after a visit, if anything is. -/
def rest (rootID uTargetID : CUInt128) (eligible : ν → Bool) (zone : CRoutingZone ν) (path : List EPath) :
    List ν :=
  if path = [] then [] else remaining rootID uTargetID eligible zone path

/-- A visit of a zone goes on from one path to another. -/
structure Visits (GetID : ν → CUInt128) (rootID uTargetID : CUInt128) (eligible : ν → Bool)
    (zone : CRoutingZone ν) (path : List EPath) (visited : List ν) (path' : List EPath) : Prop where
  /-- The nodes visited are the first ones of those that were left. -/
  all : remaining rootID uTargetID eligible zone path = visited ++ rest rootID uTargetID eligible zone path'
  /-- The path is one of the zone. -/
  pathOk : PathOk rootID uTargetID zone path'
  /-- The nodes visited are closer than all that are left. -/
  closer : ∀ p ∈ visited, ∀ q ∈ rest rootID uTargetID eligible zone path',
    distance GetID uTargetID p < distance GetID uTargetID q

/-- The visit of a bin. -/
theorem gatherNode_bin {uLevel : ℕ} {uZoneIndex : CUInt128} {Nodes : List ν} {pRandomLookup : Option CUInt128}
    (hsize : Iter.TempNodes.size + Nodes.length ≤ 2 ^ 32 - 1) :
    gatherNode GetID rootID uTargetID eligible (bin uLevel uZoneIndex Nodes pRandomLookup) Iter =
      some (true, { Iter with TempNodes := stock GetID uTargetID (Nodes.filter eligible) Iter.TempNodes }) := by
  have hall : (stock GetID uTargetID (Nodes.filter eligible) Iter.TempNodes).entries.length ≤ 2 ^ 32 - 1 := by
    have hstock : (stock GetID uTargetID (Nodes.filter eligible) Iter.TempNodes).size ≤ _ := size_stock_le _ _
    have hfilter := List.length_filter_le eligible Nodes
    unfold OrderedMap.size at *
    omega
  have htaken : getClosestNodes GetID rootID uTargetID eligible (2 ^ 32 - 1)
      (bin uLevel uZoneIndex Nodes pRandomLookup) Iter.TempNodes =
        (stock GetID uTargetID (Nodes.filter eligible) Iter.TempNodes).take (2 ^ 32 - 1) := by
    rw [getClosestNodes, stock, List.foldl_filter]
  rw [gatherNode, htaken]
  unfold OrderedMap.take
  congr
  exact List.take_of_length_le hall

/-- A gathering of a zone goes on from the path of the iterator, until there are enough nodes or all were
visited. -/
def Gathers (GetID : ν → CUInt128) (rootID uTargetID : CUInt128) (eligible : ν → Bool) (zone : CRoutingZone ν) : Prop :=
  ∀ (before path : List EPath) (Iter : SIterator ν), Iter.Path = before ++ path →
    Iter.TreeDepth = before.length → PathOk rootID uTargetID zone path →
    before.length + height zone ≤ Iter.Capacity → Iter.needsMore = true → Asks Iter →
    ∃ visited path', gatherNode GetID rootID uTargetID eligible zone Iter = some (path'.isEmpty, { Iter with
          Path := before ++ path', TempNodes := stock GetID uTargetID visited Iter.TempNodes }) ∧
      Visits GetID rootID uTargetID eligible zone path visited path' ∧
      (path' ≠ [] → Iter.MinNodes ≤ (stock GetID uTargetID visited Iter.TempNodes).size)

/-- The visit of a side finds its step where it was. -/
theorem visit_side {Left Right : CRoutingZone ν} (step : EPath) (before path : List EPath) (Iter : SIterator ν)
    (hside : Gathers GetID rootID uTargetID eligible (side step.eLeft Left Right))
    (hpath : Iter.Path = before ++ step :: path) (hdepth : Iter.TreeDepth = before.length + 1)
    (hok : PathOk rootID uTargetID (side step.eLeft Left Right) path)
    (hroom : before.length + 1 + height (side step.eLeft Left Right) ≤ Iter.Capacity)
    (hmore : Iter.needsMore = true) (hmin : Asks Iter) :
    ∃ visited path', visit (fun eLeft Iter =>
        if eLeft then gatherNode GetID rootID uTargetID eligible Left Iter
        else gatherNode GetID rootID uTargetID eligible Right Iter) before.length Iter =
          some (path'.isEmpty, step, { Iter with
            Path := before ++ step :: path'
            TempNodes := stock GetID uTargetID visited Iter.TempNodes }) ∧
      Visits GetID rootID uTargetID eligible (side step.eLeft Left Right) path visited path' ∧
      (path' ≠ [] → Iter.MinNodes ≤ (stock GetID uTargetID visited Iter.TempNodes).size) := by
  obtain ⟨visited, path', hgather, hvisits, henough⟩ := hside (before ++ [step]) path Iter
    (by rw [hpath, List.append_assoc, List.singleton_append]) (by simpa using hdepth) hok
    (by simpa using hroom) hmore hmin
  refine ⟨visited, path', ?_, hvisits, henough⟩
  have hstep : Iter.Path[before.length]? = some step := by rw [hpath]; simp
  have hboth : (if step.eLeft then gatherNode GetID rootID uTargetID eligible Left Iter
      else gatherNode GetID rootID uTargetID eligible Right Iter) =
        gatherNode GetID rootID uTargetID eligible (side step.eLeft Left Right) Iter := by
    cases step.eLeft <;> rfl
  rw [visit, hstep, Option.bind_some, hboth, hgather, Option.bind_some]
  simp

theorem setStep_path {before path : List EPath} {step : EPath} (step' : EPath)
    (hpath : Iter.Path = before ++ step :: path) :
    Iter.setStep before.length step' = { Iter with Path := before ++ step' :: path } := by
  unfold SIterator.setStep
  rw [hpath]
  simp

theorem closePath_step (before : List EPath) {step : EPath}
    (hpath : Iter.Path = before ++ [step]) (hdepth : Iter.TreeDepth = before.length + 1) :
    closePath Iter = (true, { Iter with Path := before }) := by
  unfold closePath
  rw [if_pos (by rw [hpath, hdepth]; simp), hpath, List.dropLast_concat]

section

variable {uLevel : ℕ} {uZoneIndex : CUInt128} {Left Right : CRoutingZone ν}

/-- A visit of the first side, from which more is left. -/
theorem Visits.stay (step : EPath) {path path' : List EPath} {visited : List ν}
    (h : Visits GetID rootID uTargetID eligible (side step.eLeft Left Right) path visited path')
    (hne : path' ≠ []) (hstep : step.eAux = false → step.eLeft = getBit rootID uLevel uTargetID)
    (hcloser : step.eAux = false → ∀ p ∈ visited, ∀ q ∈ nodes (side (!step.eLeft) Left Right),
      distance GetID uTargetID p < distance GetID uTargetID q) :
    Visits GetID rootID uTargetID eligible (fork uLevel uZoneIndex Left Right) (step :: path) visited
      (step :: path') := by
  have hall := h.all
  have hfirst := h.closer
  rw [rest, if_neg hne] at hall hfirst
  refine ⟨?_, ⟨hstep, ?_⟩, fun p hp q hq => ?_⟩
  · rw [rest, if_neg (List.cons_ne_nil _ _), remaining_fork, remaining_fork, hall, List.append_assoc]
  · have hok := h.pathOk
    rw [side] at hok
    split_ifs at hok ⊢ <;> exact hok
  · rw [rest, if_neg (List.cons_ne_nil _ _), remaining_fork] at hq
    rcases List.mem_append.mp hq with hq | hq
    · exact hfirst p hp q hq
    · split_ifs at hq with haux
      · simp at hq
      · exact hcloser (by simpa using haux) p hp q (mem_of_mem_remaining hq)

/-- A visit of the first side, which is exhausted while there are enough nodes. -/
theorem Visits.turn {step : EPath} {path : List EPath} {visited : List ν}
    (h : Visits GetID rootID uTargetID eligible (side step.eLeft Left Right) path visited [])
    (hfirst : step.eAux = false) (hcloser : ∀ p ∈ visited, ∀ q ∈ nodes (side (!step.eLeft) Left Right),
      distance GetID uTargetID p < distance GetID uTargetID q) :
    Visits GetID rootID uTargetID eligible (fork uLevel uZoneIndex Left Right) (step :: path) visited
      [⟨!step.eLeft, true⟩] := by
  have hall : remaining rootID uTargetID eligible (side step.eLeft Left Right) path = visited := by
    simpa [rest] using h.all
  refine ⟨?_, ⟨by simp, ?_⟩, fun p hp q hq => ?_⟩
  · rw [rest, if_neg (List.cons_ne_nil _ _), remaining_fork, remaining_fork, hall, hfirst]
    simp
  · dsimp only
    split_ifs <;> exact pathOk_nil _
  · rw [rest, if_neg (List.cons_ne_nil _ _), remaining_fork] at hq
    exact hcloser p hp q (mem_of_mem_remaining (by simpa using hq))

/-- A visit of the second side, after the first one was exhausted. -/
theorem Visits.second {step : EPath} {path path' : List EPath} {visited visited' : List ν}
    (h : Visits GetID rootID uTargetID eligible (fork uLevel uZoneIndex Left Right) (step :: path) visited
      [⟨!step.eLeft, true⟩])
    (h' : Visits GetID rootID uTargetID eligible (side (!step.eLeft) Left Right) [] visited' path') (hne : path' ≠ []) :
    Visits GetID rootID uTargetID eligible (fork uLevel uZoneIndex Left Right) (step :: path)
      (visited ++ visited') (⟨!step.eLeft, true⟩ :: path') := by
  have hstay : Visits GetID rootID uTargetID eligible (fork uLevel uZoneIndex Left Right)
      [⟨!step.eLeft, true⟩] visited' (⟨!step.eLeft, true⟩ :: path') :=
    Visits.stay ⟨!step.eLeft, true⟩ h' hne (by simp) (by simp)
  have hall := h.all
  have hclose := h.closer
  rw [rest, if_neg (List.cons_ne_nil _ _)] at hall hclose
  refine ⟨by rw [hall, hstay.all, List.append_assoc], hstay.pathOk, fun p hp q hq => ?_⟩
  rcases List.mem_append.mp hp with hp | hp
  · exact hclose p hp q (hstay.all ▸ List.mem_append_right _ hq)
  · exact hstay.closer p hp q hq

end

theorem Visits.exhaust {zone : CRoutingZone ν} {path : List EPath} {visited : List ν}
    (hall : remaining rootID uTargetID eligible zone path = visited) :
    Visits GetID rootID uTargetID eligible zone path visited [] := by
  exact ⟨by simpa [rest] using hall, pathOk_nil zone, by simp [rest]⟩

/-- The gathering of a fork goes on from its step. -/
theorem gatherStep_spec {uLevel : ℕ} {uZoneIndex : CUInt128} {Left Right : CRoutingZone ν} {step : EPath}
    {before path : List EPath} (Iter : SIterator ν)
    (hside : ∀ b, Gathers GetID rootID uTargetID eligible (side b Left Right))
    (hcloser : step.eAux = false → ∀ p ∈ nodes (side step.eLeft Left Right),
      ∀ q ∈ nodes (side (!step.eLeft) Left Right), distance GetID uTargetID p < distance GetID uTargetID q)
    (hpath : Iter.Path = before ++ step :: path) (hdepth : Iter.TreeDepth = before.length)
    (hok : PathOk rootID uTargetID (fork uLevel uZoneIndex Left Right) (step :: path))
    (hroom : before.length + height (fork uLevel uZoneIndex Left Right) ≤ Iter.Capacity)
    (hmore : Iter.needsMore = true) (hmin : Asks Iter) :
    ∃ visited path', gatherStep (fun eLeft Iter =>
        if eLeft then gatherNode GetID rootID uTargetID eligible Left Iter
        else gatherNode GetID rootID uTargetID eligible Right Iter) before.length Iter =
          some (path'.isEmpty, { Iter with
            Path := before ++ path', TempNodes := stock GetID uTargetID visited Iter.TempNodes }) ∧
      Visits GetID rootID uTargetID eligible (fork uLevel uZoneIndex Left Right) (step :: path) visited path' ∧
      (path' ≠ [] → Iter.MinNodes ≤ (stock GetID uTargetID visited Iter.TempNodes).size) := by
  have hheight : ∀ b, height (side b Left Right) + 1 ≤ height (fork uLevel uZoneIndex Left Right) := by
    intro b
    cases b
    · exact Nat.succ_le_succ (le_max_right _ _)
    · exact Nat.succ_le_succ (le_max_left _ _)
  have hfirstRoom := hheight step.eLeft
  have hsecondRoom := hheight (!step.eLeft)
  have hpathOk : PathOk rootID uTargetID (side step.eLeft Left Right) path := by
    rw [side]
    have hboth := hok.2
    split_ifs at hboth ⊢ <;> exact hboth
  obtain ⟨visited, path', hvisit, hvisits, henough⟩ := visit_side step before path
    { Iter with TreeDepth := Iter.TreeDepth + 1 } (hside step.eLeft) hpath (by simp [hdepth]) hpathOk
    (by simpa using by omega) hmore hmin
  unfold gatherStep
  rw [hvisit, Option.bind_some]
  dsimp only
  cases path' with
  | cons next path' =>
    -- there is more on this side
    refine ⟨visited, step :: next :: path', ?_, hvisits.stay step (List.cons_ne_nil _ _) hok.1 fun haux p hp q hq => ?_,
      fun _ => henough (List.cons_ne_nil _ _)⟩
    · simp
    · exact hcloser haux p (mem_of_mem_remaining (hvisits.all ▸ List.mem_append_left _ hp)) q hq
  | nil =>
    have hall : remaining rootID uTargetID eligible (side step.eLeft Left Right) path = visited := by
      simpa [rest] using hvisits.all
    have hturn : step.eAux = false → Visits GetID rootID uTargetID eligible
        (fork uLevel uZoneIndex Left Right) (step :: path) visited [⟨!step.eLeft, true⟩] :=
      fun haux => hvisits.turn haux fun p hp q hq => hcloser haux p (mem_of_mem_remaining (hall ▸ hp)) q hq
    have hclose : remaining rootID uTargetID eligible (fork uLevel uZoneIndex Left Right)
        [⟨!step.eLeft, true⟩] = remaining rootID uTargetID eligible (side (!step.eLeft) Left Right) [] := by
      rw [remaining_fork]
      simp
    rw [List.isEmpty_nil, if_pos rfl, setStep_path ⟨!step.eLeft, true⟩ rfl]
    split_ifs with haux hneeds
    · -- the other side is taken right away
      obtain ⟨visited', path', hvisit', hvisits', henough'⟩ := visit_side ⟨!step.eLeft, true⟩ before []
        { Iter with
          TreeDepth := Iter.TreeDepth + 1
          Path := before ++ [⟨!step.eLeft, true⟩]
          TempNodes := stock GetID uTargetID visited Iter.TempNodes } (hside (!step.eLeft)) rfl
        (by simp [hdepth]) (pathOk_nil _) (by simpa using by omega) hneeds hmin
      rw [← stock_append] at hvisit' henough'
      rw [hvisit', Option.map_some]
      cases path' with
      | cons next path' =>
        refine ⟨visited ++ visited', ⟨!step.eLeft, true⟩ :: next :: path', ?_,
          (hturn haux).second hvisits' (List.cons_ne_nil _ _), fun _ => ?_⟩
        · simp
        · exact henough' (List.cons_ne_nil _ _)
      | nil =>
        refine ⟨visited ++ visited', [], ?_, Visits.exhaust ?_, by simp⟩
        · rw [List.isEmpty_nil, if_pos rfl, closePath_step before rfl (by simp [hdepth])]
          simp
        · rw [(hturn haux).all, rest, if_neg (List.cons_ne_nil _ _), hclose, hvisits'.all, rest, if_pos rfl,
            List.append_nil]
    · -- the other side is taken at the next call
      refine ⟨visited, [⟨!step.eLeft, true⟩], by simp, hturn haux, fun _ => ?_⟩
      have hasks : Asks { Iter with
          TreeDepth := Iter.TreeDepth + 1
          Path := before ++ [⟨!step.eLeft, true⟩]
          TempNodes := stock GetID uTargetID visited Iter.TempNodes } := hmin
      exact not_lt.mp fun hless => hneeds (hasks.needsMore.mpr hless)
    · -- both sides were taken
      refine ⟨visited, [], ?_, Visits.exhaust ?_, by simp⟩
      · rw [closePath_step before rfl (by simp [hdepth])]
        simp
      · rw [remaining_fork, hall, if_pos (by simpa using haux), List.append_nil]

/-- Every zone of a tree with its nodes at their places gathers on. -/
theorem gathers {uLevel : ℕ} {uZoneIndex : CUInt128} {zone : CRoutingZone ν}
    (hz : ZoneOk GetID BucketSize rootID uLevel uZoneIndex zone) (hbucket : BucketSize < 2 ^ 31) :
    Gathers GetID rootID uTargetID eligible zone := by
  induction hz with
  | @bin uLevel uZoneIndex Nodes pRandomLookup hnodup hlength hplace =>
    intro before path Iter hpath hdepth hok hroom hmore hmin
    have hpathOk : path = [] := hok
    subst hpathOk
    have hless : (Iter.TempNodes.size : ℤ) < Iter.MinNodes := hmin.needsMore.mp hmore
    have hmost := hmin.2
    refine ⟨Nodes.filter eligible, [], ?_, Visits.exhaust rfl, by simp⟩
    rw [gatherNode_bin (by omega), ← hpath]
    rfl
  | @fork uLevel uZoneIndex Left Right hL hindex hl hr ihl ihr =>
    intro before path Iter hpath hdepth hok hroom hmore hmin
    have hside : ∀ b, Gathers GetID rootID uTargetID eligible (side b Left Right) := by
      intro b
      cases b
      · exact ihr
      · exact ihl
    have hcloser : ∀ step : EPath, (step.eAux = false → step.eLeft = getBit rootID uLevel uTargetID) →
        step.eAux = false → ∀ p ∈ nodes (side step.eLeft Left Right), ∀ q ∈ nodes (side (!step.eLeft) Left Right),
            distance GetID uTargetID p < distance GetID uTargetID q :=
      fun step hstep haux p hp q hq => side_closer hL hindex hl hr (hstep haux) hp hq
    have hhere : Iter.TreeDepth.toNat = before.length := by rw [hdepth]; rfl
    rw [gatherNode, hhere]
    cases path with
    | cons step path =>
      rw [if_neg (by rw [hpath, hdepth]; simp; omega)]
      exact gatherStep_spec Iter hside (hcloser step hok.1) hpath hdepth hok hroom hmore hmin
    | nil =>
      have hempty : Iter.Path = before := by rw [hpath, List.append_nil]
      have hpush : Iter.pushBack ⟨getBit rootID uLevel uTargetID, false⟩ =
          { Iter with Path := before ++ [⟨getBit rootID uLevel uTargetID, false⟩] } := by
        have hless : before.length < Iter.Capacity := by
          have hone : 1 ≤ height (fork uLevel uZoneIndex Left Right) := Nat.succ_le_succ (Nat.zero_le _)
          omega
        unfold SIterator.pushBack
        rw [hempty, if_pos hless]
      rw [if_pos (by rw [hempty, hdepth]), hpush]
      obtain ⟨visited, path', hgather, hvisits, henough⟩ := gatherStep_spec
        { Iter with Path := before ++ [⟨getBit rootID uLevel uTargetID, false⟩] } hside
        (hcloser _ fun _ => rfl) rfl hdepth ⟨fun _ => rfl, by split_ifs <;> exact pathOk_nil _⟩ hroom hmore hmin
      exact ⟨visited, path', hgather, ⟨by rw [remaining_nil, hvisits.all], hvisits.pathOk, hvisits.closer⟩, henough⟩

end Gathering

section Calls

variable {ν : Type*} {GetID : ν → CUInt128} {BucketSize : ℕ} {rootID uTargetID : CUInt128}
  {info : SNodeInfo ν} {eProtocol : ℕ} {iMaxState : ℤ} {zone : CRoutingZone ν}

/-- The nodes in stock. -/
def stocked (Iter : SIterator ν) : List ν := Iter.TempNodes.entries.map Prod.snd

/-- The nodes that were given, those in stock and those that are left. -/
structure IterOk (GetID : ν → CUInt128) (rootID uTargetID : CUInt128) (eligible : ν → Bool)
    (zone : CRoutingZone ν) (given left : List ν) (Iter : SIterator ν) : Prop where
  /-- The number of nodes that are needed. -/
  min : Asks Iter
  /-- The room for the path. -/
  room : height zone ≤ Iter.Capacity
  /-- The place in the tree. -/
  place : Iter.TreeDepth = -1 ∧ left = [] ∨ Iter.TreeDepth = 0 ∧ PathOk rootID uTargetID zone Iter.Path ∧
    left = remaining rootID uTargetID eligible zone Iter.Path
  /-- The nodes in stock have their distances as keys. -/
  keys : ∀ e ∈ Iter.TempNodes.entries, e.1 = distance GetID uTargetID e.2
  /-- Together they are all eligible nodes. -/
  perm : (given ++ stocked Iter ++ left).Perm ((nodes zone).filter eligible)
  /-- If the best nodes are asked for, they are given in the order of their distances. -/
  order : Iter.MinNodes = 1 → given.Pairwise (fun p q => distance GetID uTargetID p < distance GetID uTargetID q) ∧
      (∀ p ∈ given, ∀ q ∈ stocked Iter ++ left, distance GetID uTargetID p < distance GetID uTargetID q) ∧
      ∀ p ∈ stocked Iter, ∀ q ∈ left, distance GetID uTargetID p < distance GetID uTargetID q

/-- The nodes in stock after more were put in. -/
theorem stock_perm {Nodes : List ν} (hnodup : (Nodes.map GetID).Nodup) {visited : List ν}
    {TempNodes : OrderedMap ℕ ν} (hkeys : ∀ e ∈ TempNodes.entries, e.1 = distance GetID uTargetID e.2)
    (hsub : (TempNodes.entries.map Prod.snd ++ visited).Subperm Nodes) :
    ((stock GetID uTargetID visited TempNodes).entries.map Prod.snd).Perm (TempNodes.entries.map Prod.snd ++ visited) ∧
      ∀ e ∈ (stock GetID uTargetID visited TempNodes).entries, e.1 = distance GetID uTargetID e.2 := by
  induction visited generalizing TempNodes with
  | nil => exact ⟨by simp [stock], hkeys⟩
  | cons q visited ih =>
    have hnew : ∀ e ∈ TempNodes.entries, e.1 ≠ distance GetID uTargetID q := by
      intro e he hsame
      obtain ⟨l, hperm, hsublist⟩ := hsub
      have hdistinct : (TempNodes.entries.map Prod.snd ++ q :: visited).Nodup :=
        hperm.nodup_iff.mp (hsublist.nodup (List.Nodup.of_map GetID hnodup))
      have hsub : (TempNodes.entries.map Prod.snd ++ q :: visited).Subperm Nodes := ⟨l, hperm, hsublist⟩
      have hmem : e.2 ∈ TempNodes.entries.map Prod.snd := List.mem_map_of_mem he
      have heq : e.2 = q := eq_of_distance_eq hnodup (hsub.subset (List.mem_append_left _ hmem))
        (hsub.subset (by simp)) ((hkeys e he).symm.trans hsame)
      exact (List.nodup_append.mp hdistinct).2.2 e.2 hmem q List.mem_cons_self heq
    have hinsert := (OrderedMap.entries_insert_perm q hnew).map Prod.snd
    have hkeys' : ∀ e ∈ (TempNodes.insert (distance GetID uTargetID q) q).entries,
        e.1 = distance GetID uTargetID e.2 := by
      intro e he
      rcases OrderedMap.mem_insert.mp he with rfl | ⟨hold, -⟩
      · rfl
      · exact hkeys e hold
    have hmove : ((TempNodes.insert (distance GetID uTargetID q) q).entries.map Prod.snd ++ visited).Perm
        (TempNodes.entries.map Prod.snd ++ q :: visited) :=
      (hinsert.append_right visited).trans List.perm_middle.symm
    obtain ⟨hperm, hall⟩ := ih hkeys' (hmove.subperm.trans hsub)
    exact ⟨hperm.trans hmove, hall⟩

variable {Iter : SIterator ν}

theorem stocked_ne_nil (hmin : 1 ≤ Iter.MinNodes) (h : Iter.MinNodes ≤ Iter.TempNodes.size) : stocked Iter ≠ [] := by
  intro hnone
  have hsize : Iter.TempNodes.size = 0 := by
    have hlength := congrArg List.length hnone
    simpa [stocked, OrderedMap.size] using hlength
  omega

variable {eligible : ν → Bool}

/-- Nodes that were left are put in stock, if there were not enough. -/
theorem IterOk.restock {given left visited left' : List ν} {Iter Iter' : SIterator ν}
    (h : IterOk GetID rootID uTargetID eligible zone given left Iter)
    (hnodup : ((nodes zone).map GetID).Nodup) (hmore : Iter.needsMore = true) (hleft : left = visited ++ left')
    (hcloser : ∀ p ∈ visited, ∀ q ∈ left', distance GetID uTargetID p < distance GetID uTargetID q)
    (hmin : Iter'.MinNodes = Iter.MinNodes) (hroom : Iter'.Capacity = Iter.Capacity)
    (htemp : Iter'.TempNodes = stock GetID uTargetID visited Iter.TempNodes)
    (hplace : Iter'.TreeDepth = -1 ∧ left' = [] ∨ Iter'.TreeDepth = 0 ∧
      PathOk rootID uTargetID zone Iter'.Path ∧ left' = remaining rootID uTargetID eligible zone Iter'.Path) :
    IterOk GetID rootID uTargetID eligible zone given left' Iter' := by
  have hperm := h.perm
  rw [hleft, ← List.append_assoc, List.append_assoc given] at hperm
  have hsub : (Iter.TempNodes.entries.map Prod.snd ++ visited).Subperm (nodes zone) :=
    ((List.sublist_append_right given _).trans (List.sublist_append_left _ _)).subperm.trans
      (hperm.subperm.trans List.filter_sublist.subperm)
  obtain ⟨hstock, hkeys⟩ := stock_perm hnodup h.keys hsub
  have hstocked : (stocked Iter').Perm (stocked Iter ++ visited) := by
    unfold stocked
    rw [htemp]
    exact hstock
  have hasks : Asks Iter' := by
    unfold Asks
    rw [hmin]
    exact h.min
  refine ⟨hasks, hroom ▸ h.room, hplace, htemp ▸ hkeys, ?_, fun hone => ?_⟩
  · exact ((hstocked.append_left given).append_right left').trans hperm
  · obtain ⟨hgiven, hless, -⟩ := h.order (hmin ▸ hone)
    have hnone : stocked Iter = [] := by
      have hfew : (Iter.TempNodes.size : ℤ) < Iter.MinNodes := h.min.needsMore.mp hmore
      rw [← hmin, hone] at hfew
      have hzero : Iter.TempNodes.entries.length = 0 := by
        unfold OrderedMap.size at hfew
        omega
      rw [stocked, List.length_eq_zero_iff.mp hzero, List.map_nil]
    rw [hnone, List.nil_append] at hstocked hless
    refine ⟨hgiven, fun p hp q hq => hless p hp q ?_, fun p hp q hq => hcloser p (hstocked.mem_iff.mp hp) q hq⟩
    rw [hleft]
    rcases List.mem_append.mp hq with hq | hq
    · exact List.mem_append_left _ (hstocked.mem_iff.mp hq)
    · exact List.mem_append_right _ hq

variable {given left : List ν}

theorem IterOk.nextBucket (h : IterOk GetID rootID uTargetID eligible zone given left Iter)
    (hz : ZoneOk GetID BucketSize rootID 0 0 zone) (hbucket : BucketSize < 2 ^ 31) :
    ∃ Iter' left', nextBucket GetID rootID uTargetID eligible zone Iter = some Iter' ∧
      IterOk GetID rootID uTargetID eligible zone given left' Iter' ∧ Iter'.MinNodes = Iter.MinNodes ∧
      (stocked Iter' = [] → left' = []) := by
  have hgathers : Gathers GetID rootID uTargetID eligible zone := gathers hz hbucket
  unfold ClosestIterator.nextBucket
  split_ifs with hnext
  · simp only [Bool.and_eq_true, decide_eq_true_eq] at hnext
    obtain ⟨hmore, hdepth⟩ := hnext
    obtain ⟨hzero, hpathOk, hleft⟩ := h.place.resolve_left fun hdone => hdepth hdone.1
    obtain ⟨visited, path', hgather, hvisits, henough⟩ := hgathers [] Iter.Path Iter rfl
      (by simpa using hzero) hpathOk (by simpa using h.room) hmore h.min
    have hall := hleft.trans hvisits.all
    have hclose := hvisits.closer
    rw [hgather, Option.map_some]
    cases path' with
    | nil =>
      refine ⟨_, [], rfl, h.restock hz.nodup hmore hall hclose rfl rfl rfl (Or.inl ⟨rfl, rfl⟩), rfl, fun _ => rfl⟩
    | cons step path' =>
      rw [rest, if_neg (List.cons_ne_nil _ _)] at hall hclose
      refine ⟨_, _, rfl, h.restock hz.nodup hmore hall hclose rfl rfl rfl
        (Or.inr ⟨hzero, hvisits.pathOk, rfl⟩), rfl, fun hnone => absurd hnone ?_⟩
      exact stocked_ne_nil h.min.1 (henough (List.cons_ne_nil _ _))
  · refine ⟨Iter, left, rfl, h, rfl, fun hnone => ?_⟩
    simp only [Bool.and_eq_true, decide_eq_true_eq, not_and, not_not] at hnext
    rcases h.place with hdone | hplace
    · exact hdone.2
    · have hmore : Iter.needsMore = true := by
        by_contra hnot
        exact stocked_ne_nil h.min.1 (not_lt.mp fun hless => hnot (h.min.needsMore.mpr hless)) hnone
      have hdepth := hnext hmore
      omega

theorem IterOk.takeNode (h : IterOk GetID rootID uTargetID eligible zone given left Iter) (rand : ℕ) {MinNodes : ℤ}
    (hone : Iter.MinNodes = 1 → MinNodes = 1) : (stocked Iter = [] ∧ takeNode rand MinNodes Iter = (none, Iter)) ∨
      ∃ q Iter', takeNode rand MinNodes Iter = (some q, Iter') ∧ Iter'.MinNodes = Iter.MinNodes ∧
        IterOk GetID rootID uTargetID eligible zone (given ++ [q]) left Iter' := by
  unfold ClosestIterator.takeNode
  cases hentry : Iter.TempNodes.entries[if MinNodes > 1 then rand % Iter.TempNodes.size else 0]? with
  | none =>
    left
    refine ⟨?_, rfl⟩
    rw [List.getElem?_eq_none_iff] at hentry
    have hzero : Iter.TempNodes.entries.length = 0 := by
      by_contra hne
      have hmod := Nat.mod_lt rand (Nat.pos_of_ne_zero hne)
      unfold OrderedMap.size at hentry
      split_ifs at hentry <;> omega
    rw [stocked, List.length_eq_zero_iff.mp hzero, List.map_nil]
  | some I =>
    right
    refine ⟨I.2, _, rfl, rfl, ?_⟩
    have hmem : I ∈ Iter.TempNodes.entries := List.mem_of_getElem? hentry
    have htaken := (OrderedMap.entries_erase_perm hmem).map Prod.snd
    have hstill : ∀ e ∈ (Iter.TempNodes.erase I.1).entries, e ∈ Iter.TempNodes.entries :=
      fun e he => List.mem_of_mem_filter he
    refine ⟨h.min, h.room, h.place, fun e he => h.keys e (hstill e he), ?_, fun hbest => ?_⟩
    · refine List.Perm.trans (List.Perm.append_right left ?_) h.perm
      rw [List.append_assoc, List.singleton_append]
      exact htaken.symm.append_left given
    · obtain ⟨hgiven, hless, hleft⟩ := h.order hbest
      have hfirst : ∀ e ∈ (Iter.TempNodes.erase I.1).entries, I.1 < e.1 := by
        intro e he
        rw [if_neg (by rw [hone hbest]; omega)] at hentry
        have hne : e.1 ≠ I.1 := by simpa using (List.mem_filter.mp he).2
        have hsorted := Iter.TempNodes.sorted
        have hold := hstill e he
        cases hentries : Iter.TempNodes.entries with
        | nil => rw [hentries] at hold; simp at hold
        | cons a l =>
          rw [hentries] at hsorted hold hentry
          have ha : a = I := by simpa using hentry
          rw [← ha] at hne ⊢
          rcases List.mem_cons.mp hold with rfl | htail
          · exact absurd rfl hne
          · exact (List.pairwise_cons.mp hsorted).1 e htail
      have hin : I.2 ∈ stocked Iter := List.mem_map_of_mem hmem
      have hout : ∀ q ∈ (Iter.TempNodes.erase I.1).entries.map Prod.snd, q ∈ stocked Iter ∧
          distance GetID uTargetID I.2 < distance GetID uTargetID q := by
        intro q hq
        obtain ⟨e, he, rfl⟩ := List.mem_map.mp hq
        refine ⟨List.mem_map_of_mem (hstill e he), ?_⟩
        rw [← h.keys I hmem, ← h.keys e (hstill e he)]
        exact hfirst e he
      refine ⟨List.pairwise_append.mpr ⟨hgiven, List.pairwise_singleton _ _, fun p hp q hq => ?_⟩,
        fun p hp q hq => ?_, fun p hp q hq => hleft p (hout p hp).1 q hq⟩
      · rw [List.mem_singleton.mp hq]
        exact hless p hp I.2 (List.mem_append_left _ hin)
      · rcases List.mem_append.mp hp with hp | hp <;> rcases List.mem_append.mp hq with hq | hq
        · exact hless p hp q (List.mem_append_left _ (hout q hq).1)
        · exact hless p hp q (List.mem_append_right _ hq)
        · rw [List.mem_singleton.mp hp]
          exact (hout q hq).2
        · rw [List.mem_singleton.mp hp]
          exact hleft I.2 hin q hq

/-- The calls from an iterator on give the nodes that are still there, and nothing after them. -/
theorem IterOk.getNodes (h : IterOk GetID rootID uTargetID (isEligible info eProtocol iMaxState) zone given left Iter)
    (hz : ZoneOk GetID BucketSize rootID 0 0 zone) (hbucket : BucketSize < 2 ^ 31) (calls : List (List ℕ)) :
    ∃ more last : List ν, getNodes GetID rootID uTargetID info eProtocol iMaxState zone calls Iter =
        some (more.map some ++ List.replicate (calls.length - more.length) none) ∧
      more.length ≤ calls.length ∧ (more.length < calls.length → last = []) ∧
      (given ++ more ++ last).Perm ((nodes zone).filter (isEligible info eProtocol iMaxState)) ∧
      (Iter.MinNodes = 1 →
        (given ++ more).Pairwise fun p q => distance GetID uTargetID p < distance GetID uTargetID q) := by
  induction calls generalizing given left Iter with
  | nil =>
    refine ⟨[], stocked Iter ++ left, rfl, le_rfl, fun hless => absurd hless (lt_irrefl 0), ?_, fun hbest => ?_⟩
    · rw [List.append_nil, ← List.append_assoc]
      exact h.perm
    · rw [List.append_nil]
      exact (h.order hbest).1
  | cons rands calls ih =>
    have hmin : Iter.MinNodes ≠ 0 := by
      have hone := h.min.1
      omega
    obtain ⟨Iter₁, left₁, hnext, hok, hsame, hlast⟩ := h.nextBucket hz hbucket
    have hpick : Iter₁.MinNodes = 1 → nodesToPick Iter = 1 := by
      intro hbest
      unfold nodesToPick
      rw [if_neg (by omega), ← hsame, hbest]
    rw [ClosestIterator.getNodes, getClosestNode, if_neg hmin, hnext, Option.map_some, Option.bind_some]
    rcases hok.takeNode (rands.headD 0) hpick with ⟨hnone, htake⟩ | ⟨q, Iter₂, htake, hstill, htaken⟩
    · obtain ⟨more, last, hget, -, -, hperm, -⟩ := ih hok
      have hlength := hperm.length_eq.trans hok.perm.length_eq.symm
      rw [hnone, hlast hnone, List.append_nil, List.append_nil] at hlength
      simp only [List.length_append] at hlength
      have hmore : more = [] := List.length_eq_zero_iff.mp (by omega)
      have hlast : last = [] := List.length_eq_zero_iff.mp (by omega)
      subst hmore hlast
      refine ⟨[], [], ?_, Nat.zero_le _, fun _ => rfl, hperm, fun hbest => ?_⟩
      · rw [htake, hget, Option.map_some]
        simp [List.replicate_succ]
      · rw [List.append_nil]
        exact (h.order hbest).1
    · obtain ⟨more, last, hget, hle, hdone, hperm, horder⟩ := ih htaken
      refine ⟨q :: more, last, ?_, Nat.succ_le_succ hle, fun hless => hdone (Nat.lt_of_succ_lt_succ hless), ?_, ?_⟩
      · rw [htake, hget, Option.map_some]
        simp
      · simpa using hperm
      · intro hbest
        rw [List.append_cons]
        exact horder (hstill.trans (hsame.trans hbest))

/-- In a tree whose nodes are at their places and whose paths are not longer than what the path has room for,
the calls with an iterator that asks for nodes give every eligible node once and then none, and an iterator that
asks for the best node gives them in the order of their distances. -/
theorem getNodes_exact (hz : ZoneOk GetID BucketSize rootID 0 0 zone) (hbucket : BucketSize < 2 ^ 31)
    (hheight : height zone ≤ 31) (info : SNodeInfo ν) (uTargetID : CUInt128) (eProtocol : ℕ) (iMaxState : ℤ)
    {iCount : ℤ} (hmin : 1 ≤ iCount ∧ iCount < 2 ^ 31) (calls : List (List ℕ)) :
    let found := (nodes zone).filter (isEligible info eProtocol iMaxState)
    ∃ given : List ν, getNodes GetID rootID uTargetID info eProtocol iMaxState zone calls (SIterator.new iCount) =
        some (given.map some ++ List.replicate (calls.length - given.length) none) ∧
      given.length = min calls.length found.length ∧ given.Subperm found ∧
      (found.length ≤ calls.length → given.Perm found) ∧
      (iCount = 1 → given.Pairwise fun p q => distance GetID uTargetID p < distance GetID uTargetID q) := by
  intro found
  have hstart : IterOk GetID rootID uTargetID (isEligible info eProtocol iMaxState) zone []
      (remaining rootID uTargetID (isEligible info eProtocol iMaxState) zone []) (SIterator.new iCount) :=
    { min := hmin
      room := hheight
      place := Or.inr ⟨rfl, pathOk_nil zone, rfl⟩
      keys := by simp [SIterator.new, OrderedMap.empty]
      perm := remaining_perm zone
      order := by simp [stocked, SIterator.new, OrderedMap.empty] }
  obtain ⟨given, last, hget, hle, hlast, hperm, horder⟩ := hstart.getNodes hz hbucket calls
  rw [List.nil_append] at hperm horder
  have hlength : given.length + last.length = found.length := by
    rw [← List.length_append, hperm.length_eq]
  have hcount : given.length = min calls.length found.length := by
    rcases hle.lt_or_eq with hless | heq
    · have hnone : last.length = 0 := by rw [hlast hless, List.length_nil]
      omega
    · omega
  refine ⟨given, hget, hcount, (List.sublist_append_left given last).subperm.trans hperm.subperm, fun hall => ?_,
    horder⟩
  have hnone : last = [] := List.length_eq_zero_iff.mp (by omega)
  rwa [hnone, List.append_nil] at hperm

/-- Of the two nodes of a tree the best one is given first, and after both there are no more. -/
theorem getNodes_twoBins : ∃ given : List CUInt128,
    getNodes id 0 0x80000000000000000000000000000001#128 ⟨fun _ => 0, fun _ _ => true, fun _ => false⟩ 0 4 twoBins
        [[], [], []] (SIterator.new 1) = some (given.map some ++ List.replicate (3 - given.length) none) ∧
      given.length = min 3 2 ∧ given.Pairwise fun p q =>
        distance id 0x80000000000000000000000000000001#128 p <
          distance id 0x80000000000000000000000000000001#128 q := by
  obtain ⟨given, hget, hlength, -, -, horder⟩ := getNodes_exact zoneOk_twoBins (by norm_num) (by decide)
    ⟨fun _ => 0, fun _ _ => true, fun _ => false⟩ 0x80000000000000000000000000000001#128 0 4 ⟨le_rfl, by norm_num⟩
    [[], [], []]
  exact ⟨given, hget, hlength, horder rfl⟩

/-- Forks one below the other on the right side. -/
def deep : ℕ → ℕ → CRoutingZone CUInt128
  | 0, uLevel => bin uLevel 0 [] none
  | n + 1, uLevel => fork uLevel 0 (bin (uLevel + 1) 1 [] none) (deep n (uLevel + 1))

theorem zoneOk_deep {n uLevel : ℕ} (h : uLevel + n ≤ 128) : ZoneOk id 10 0 uLevel 0 (deep n uLevel) := by
  induction n generalizing uLevel with
  | zero => exact ZoneOk.bin none (by simp) (by simp) (by simp)
  | succ n ih =>
    exact ZoneOk.fork (by omega) (by simp) (ZoneOk.bin none (by simp) (by simp) (by simp)) (ih (by omega))

/-- An iterator that asks for no number of nodes tries nodes by chance, which misses one of two eligible ones. If
there are more forks than the path has room for then a reference is used after the path was moved. -/
theorem getNodes_wrong :
    getNodes id 0 0 ⟨fun _ => 0, fun _ _ => true, fun _ => false⟩ 0 4 twoBins [[], []] (SIterator.new 0) =
        some [some 1#128, none] ∧
      (nodes twoBins).filter (isEligible ⟨fun _ => 0, fun _ _ => true, fun _ => false⟩ 0 4) =
        [0x80000000000000000000000000000000#128, 1#128] ∧
      ZoneOk id 10 0 0 0 (deep 32 0) ∧
      getNodes id 0 0 ⟨fun _ => 0, fun _ _ => true, fun _ => false⟩ 0 4 (deep 32 0) [[]] (SIterator.new 1) =
        none :=
  ⟨by decide, by decide, zoneOk_deep (by omega), by decide +kernel⟩

end Calls

end NeoLoader.ClosestIterator
