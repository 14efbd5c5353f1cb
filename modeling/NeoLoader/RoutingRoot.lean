import NeoLoader.RoutingZone

/-!
# The root of a Kademlia routing tree

The root does not add the own ID, and counts its nodes. In every run of adding,
removing and consolidating, the nodes are at their places and found there.
-/

namespace NeoLoader.RoutingRoot

open BitPrefix RoutingZone

/-- `CRoutingRoot`, which is the fork of the whole space. -/
structure CRoutingRoot (ν : Type*) where
  ID : CUInt128
  /-- The root as a zone. -/
  zone : CRoutingZone ν
  NodeCount : ℕ

section Operations

variable {ν : Type*} (GetID : ν → CUInt128) (Cfg : CKadConfig)

/-- The constructor of `CRoutingRoot`. -/
def CRoutingRoot.create (ID : CUInt128) : CRoutingRoot ν := ⟨ID, newFork 0 0, 0⟩

variable (root : CRoutingRoot ν)

/-- `CRoutingRoot::AddNode` within a number of calls, with the pointer to the node that
is in the tree now. -/
def CRoutingRoot.addNode (fuel : ℕ) (pNode : ν) : Option (Bool × ν × CRoutingRoot ν) :=
  if GetID pNode = root.ID then some (false, pNode, root)
  else (RoutingZone.addNode GetID Cfg root.ID fuel root.zone pNode).map fun result =>
    (true, result.2.1, { root with
      zone := result.2.2
      NodeCount := if result.1 then root.NodeCount + 1 else root.NodeCount })

def CRoutingRoot.removeNode (ID : CUInt128) : Bool × CRoutingRoot ν :=
  let result := RoutingZone.removeNode GetID root.ID ID root.zone
  if result.1 = false then (false, { root with zone := result.2 })
  else (true, { root with zone := result.2, NodeCount := root.NodeCount - 1 })

/-- `CRoutingRoot::Consolidate`, with the nodes that were erased. -/
def CRoutingRoot.consolidate (fuel : ℕ) (bCleanUp : Bool) (IsFading IsNeeded : ν → Bool) :
    Option (List ν × CRoutingRoot ν) :=
  (RoutingZone.consolidate GetID Cfg root.ID fuel bCleanUp IsFading IsNeeded false root.zone).map
    fun result => (result.erased, { root with zone := result.zone, NodeCount := result.uCount })

/-- `CRoutingFork::Checkout` of the root. -/
def CRoutingRoot.checkout (CheckoutNode : ν → Bool)
    (lookup : ℕ → CUInt128 → Option CUInt128 → Option CUInt128) : CRoutingRoot ν :=
  { root with zone := RoutingZone.checkout CheckoutNode lookup root.zone }

end Operations

section Runs

variable {ν : Type*}

/-- Runs of a root, with the IDs that were added with success or removed, the last one
first. -/
inductive Run (GetID : ν → CUInt128) (Cfg : CKadConfig) (rootID : CUInt128) :
    List (CUInt128 × Bool) → CRoutingRoot ν → Prop where
  /-- The root is created. -/
  | create : Run GetID Cfg rootID [] (CRoutingRoot.create rootID)
  /-- `AddNode` returns. -/
  | addNode {log : List (CUInt128 × Bool)} {root : CRoutingRoot ν} {fuel : ℕ} {pNode : ν}
    {result : Bool × ν × CRoutingRoot ν} : Run GetID Cfg rootID log root →
    root.addNode GetID Cfg fuel pNode = some result →
    Run GetID Cfg rootID (if result.1 then (GetID pNode, true) :: log else log) result.2.2
  /-- `RemoveNode` returns. -/
  | removeNode {log : List (CUInt128 × Bool)} {root : CRoutingRoot ν} (ID : CUInt128) : Run GetID Cfg rootID log root →
    Run GetID Cfg rootID (if (root.removeNode GetID ID).1 then (ID, false) :: log else log) (root.removeNode GetID ID).2
  /-- `Consolidate` returns. -/
  | consolidate {log : List (CUInt128 × Bool)} {root : CRoutingRoot ν} {fuel : ℕ}
    {bCleanUp : Bool} {IsFading IsNeeded : ν → Bool} {result : List ν × CRoutingRoot ν} :
    Run GetID Cfg rootID log root →
    root.consolidate GetID Cfg fuel bCleanUp IsFading IsNeeded = some result →
    Run GetID Cfg rootID (result.1.map (fun q => (GetID q, false)) ++ log) result.2
  /-- `Checkout` returns. -/
  | checkout {log : List (CUInt128 × Bool)} {root : CRoutingRoot ν} (CheckoutNode : ν → Bool)
    (lookup : ℕ → CUInt128 → Option CUInt128 → Option CUInt128) : Run GetID Cfg rootID log root →
    Run GetID Cfg rootID log (root.checkout CheckoutNode lookup)

/-- The last operation on an ID that had success was adding it. -/
def LastAdded (log : List (CUInt128 × Bool)) (ID : CUInt128) : Prop :=
  (log.find? fun e => e.1 = ID).map Prod.snd = some true

variable {GetID : ν → CUInt128} {Cfg : CKadConfig} {rootID : CUInt128}

/-- A root with all nodes at their places, whose nodes are those that were added last. -/
structure RootOk (GetID : ν → CUInt128) (Cfg : CKadConfig) (rootID : CUInt128)
    (log : List (CUInt128 × Bool)) (root : CRoutingRoot ν) : Prop where
  /-- The own ID does not change. -/
  ID : root.ID = rootID
  /-- All nodes are at their places. -/
  zone : ZoneOk GetID Cfg.BucketSize rootID 0 0 root.zone
  /-- The own ID is not in the tree. -/
  absent : ∀ q ∈ nodes root.zone, GetID q ≠ rootID
  /-- The nodes were added last. -/
  added : ∀ ID, (∃ q ∈ nodes root.zone, GetID q = ID) ↔ LastAdded log ID
  /-- The nodes are counted. -/
  count : root.NodeCount = (nodes root.zone).length

variable {log : List (CUInt128 × Bool)}

theorem lastAdded_cons {e : CUInt128 × Bool} {ID : CUInt128} :
    LastAdded (e :: log) ID ↔ if e.1 = ID then e.2 = true else LastAdded log ID := by
  unfold LastAdded
  rw [List.find?_cons]
  by_cases h : e.1 = ID <;> simp [h]

theorem lastAdded_removed (erased : List ν) {ID : CUInt128} :
    LastAdded (erased.map (fun q => (GetID q, false)) ++ log) ID ↔ (∀ q ∈ erased, GetID q ≠ ID) ∧ LastAdded log ID := by
  induction erased with
  | nil => simp
  | cons q erased ih =>
    rw [List.map_cons, List.cons_append, lastAdded_cons, ih]
    by_cases h : GetID q = ID <;> simp [h]

/-- All operations keep a root in order. -/
theorem Run.ok {root : CRoutingRoot ν} (h : Run GetID Cfg rootID log root) : RootOk GetID Cfg rootID log root := by
  induction h with
  | create =>
    exact ⟨rfl, zoneOk_newFork GetID Cfg.BucketSize rootID (by omega) (by simp),
      (fun q hq => by cases hq), fun ID => by simp [LastAdded, CRoutingRoot.create, newFork, nodes],
      rfl⟩
  | @addNode log root fuel pNode result _ hadd ih =>
    rw [CRoutingRoot.addNode] at hadd
    split_ifs at hadd with hown
    · obtain rfl := Option.some.inj hadd
      exact ih
    · obtain ⟨result', hzone, rfl⟩ := Option.map_eq_some_iff.mp hadd
      rw [ih.ID] at hzone hown
      have hok := addNode_ok ih.zone (topBits_zero _) hzone
      by_cases hnew : result'.1 = true
      · obtain ⟨-, -, hperm⟩ := hok.added hnew
        refine ⟨ih.ID, hok.ok, fun q hq => ?_, fun ID => ?_, ?_⟩
        · rcases List.mem_cons.mp (hperm.mem_iff.mp hq) with rfl | hq
          exacts [hown, ih.absent q hq]
        · rw [if_pos rfl, lastAdded_cons, ← ih.added ID]
          simp only [hperm.mem_iff, List.mem_cons, exists_eq_or_imp]
          by_cases h : GetID pNode = ID <;> simp [h]
        · rw [if_pos hnew, hperm.length_eq, List.length_cons, ih.count]
      · have hold := Bool.eq_false_of_not_eq_true hnew
        obtain ⟨hm, hsame, heq⟩ := hok.known hold
        refine ⟨ih.ID, hok.ok, fun q hq => ih.absent q (heq ▸ hq), fun ID => ?_, ?_⟩
        · rw [if_pos rfl, lastAdded_cons, ← ih.added ID, heq]
          by_cases h : GetID pNode = ID
          · simp only [h, if_true, iff_true]
            exact ⟨_, hm, hsame.trans h⟩
          · simp [h]
        · rw [if_neg hnew, heq, ih.count]
  | @removeNode log root ID _ ih =>
    obtain ⟨hok, hfound, hmissed⟩ := removeNode_ok ih.zone ID
    have hnodup := ih.zone.nodup
    cases hremoved : (RoutingZone.removeNode GetID rootID ID root.zone).1 with
    | false =>
      obtain ⟨hsame, -⟩ := hmissed hremoved
      have hrun : root.removeNode GetID ID = (false, root) := by
        rw [CRoutingRoot.removeNode, ih.ID, if_pos hremoved, hsame]
        simp only [← ih.ID]
      rw [hrun]
      exact ih
    | true =>
      obtain ⟨q, rfl, hperm⟩ := hfound hremoved
      have hrun : root.removeNode GetID (GetID q) = (true, ⟨rootID,
          (RoutingZone.removeNode GetID rootID (GetID q) root.zone).2, root.NodeCount - 1⟩) := by
        rw [CRoutingRoot.removeNode, ih.ID, if_neg (by simp [hremoved])]
      rw [(hperm.map GetID).nodup_iff, List.map_cons, List.nodup_cons] at hnodup
      rw [hrun]
      refine ⟨rfl, hok, fun p hp => ih.absent p (hperm.mem_iff.mpr (List.mem_cons_of_mem _ hp)), fun ID => ?_, ?_⟩
      · rw [if_pos rfl, lastAdded_cons, ← ih.added ID]
        simp only [hperm.mem_iff, List.mem_cons, exists_eq_or_imp]
        by_cases h : GetID q = ID
        · subst h
          simpa using hnodup.1
        · simp [h]
      · have hlen := hperm.length_eq
        rw [List.length_cons] at hlen
        dsimp only
        rw [ih.count, hlen, Nat.add_sub_cancel]
  | @consolidate log root fuel bCleanUp IsFading IsNeeded result _ hcons ih =>
    obtain ⟨result', hzone, rfl⟩ := Option.map_eq_some_iff.mp hcons
    rw [ih.ID] at hzone
    obtain ⟨hok, hperm, hcount⟩ := consolidate_ok ih.zone hzone
    have hnodup := ih.zone.nodup
    rw [(hperm.map GetID).nodup_iff, List.map_append, List.nodup_append] at hnodup
    refine ⟨ih.ID, hok, fun p hp => ih.absent p (hperm.mem_iff.mpr (List.mem_append_right _ hp)), fun ID => ?_, hcount⟩
    rw [lastAdded_removed, ← ih.added ID]
    constructor
    · rintro ⟨q, hq, rfl⟩
      exact ⟨fun p hp => hnodup.2.2 _ (List.mem_map_of_mem hp) _ (List.mem_map_of_mem hq),
        q, hperm.mem_iff.mpr (List.mem_append_right _ hq), rfl⟩
    · rintro ⟨herased, q, hq, rfl⟩
      rcases List.mem_append.mp (hperm.mem_iff.mp hq) with hq | hq
      exacts [absurd rfl (herased q hq), ⟨q, hq, rfl⟩]
  | @checkout log root CheckoutNode lookup _ ih =>
    obtain ⟨hok, hperm⟩ := checkout_ok ih.zone CheckoutNode lookup
    refine ⟨ih.ID, hok, fun p hp => ih.absent p (hperm.mem_iff.mpr hp), fun ID => ?_, ih.count.trans hperm.length_eq⟩
    rw [← ih.added ID]
    simp only [hperm.mem_iff]
    rfl

/-- In every run all nodes are at their places, no bin has too many, no ID is twice in
the tree and the own one not at all, `GetNode` finds the IDs that were added last, and
the nodes are counted. With room for nodes in a bin all operations return. -/
theorem run_routing {log : List (CUInt128 × Bool)} {root : CRoutingRoot ν} (h : Run GetID Cfg rootID log root) :
    (∀ b ∈ bins root.zone, b.2.2.length ≤ Cfg.BucketSize ∧ ∀ q ∈ b.2.2, topBits b.1 (GetID q ^^^ rootID) = b.2.1) ∧
    ((nodes root.zone).map GetID).Nodup ∧ (∀ q ∈ nodes root.zone, GetID q ≠ rootID) ∧
    (∀ ID, (getNode GetID rootID ID root.zone).isSome ↔ LastAdded log ID) ∧
    (∀ ID q, getNode GetID rootID ID root.zone = some q → q ∈ nodes root.zone ∧ GetID q = ID) ∧
    root.NodeCount = (nodes root.zone).length ∧
    (0 < Cfg.BucketSize → (∀ fuel ≥ 258, ∀ pNode, ∃ result, root.addNode GetID Cfg fuel pNode = some result) ∧
      ∀ fuel > 0, ∀ bCleanUp IsFading IsNeeded, ∃ result,
        root.consolidate GetID Cfg fuel bCleanUp IsFading IsNeeded = some result) := by
  have hok := h.ok
  refine ⟨hok.zone.bins, hok.zone.nodup, hok.absent, fun ID => ?_,
    fun ID q hq => getNode_eq_some hq, hok.count, fun hroom => ⟨fun fuel hfuel pNode => ?_,
      fun fuel hfuel bCleanUp IsFading IsNeeded => ?_⟩⟩
  · rw [← hok.added ID, Option.isSome_iff_exists]
    constructor
    · rintro ⟨q, hq⟩
      exact ⟨q, getNode_eq_some hq⟩
    · rintro ⟨q, hq, rfl⟩
      exact Option.isSome_iff_exists.mp (hok.zone.getNode_isSome hq)
  · rw [CRoutingRoot.addNode, hok.ID]
    split_ifs
    · exact ⟨_, rfl⟩
    · obtain ⟨result, hrun, -⟩ := exists_addNode hroom (Nat.zero_le 128) hok.zone
        (topBits_zero (GetID pNode ^^^ rootID)) (show 2 * (129 - 0) ≤ fuel + _ by omega)
      exact ⟨_, by rw [hrun]; rfl⟩
  · obtain ⟨result, hrun⟩ := exists_consolidate hok.zone hfuel bCleanUp false IsFading IsNeeded
    exact ⟨_, by rw [CRoutingRoot.consolidate, hok.ID, hrun]; rfl⟩

/-- Adding two nodes with the same first bit, which makes a full bin split. -/
def addTwo : Option (CRoutingRoot CUInt128) :=
  ((CRoutingRoot.create 0).addNode id ⟨1, 5, 4⟩ 8 0x80000000000000000000000000000000#128).bind
    fun first => (first.2.2.addNode id ⟨1, 5, 4⟩ 8 0xc0000000000000000000000000000000#128).map fun second => second.2.2

/-- The two nodes are in different bins and counted. -/
theorem run_routing_two : ∃ root ∈ addTwo, root.NodeCount = (nodes root.zone).length ∧ (bins root.zone).length = 3 := by
  obtain ⟨root, hroot⟩ := Option.isSome_iff_exists.mp (show addTwo.isSome = true by decide)
  have hbins : addTwo.map (fun root => (bins root.zone).length) = some 3 := by decide
  obtain ⟨first, hfirst, hmap⟩ := Option.bind_eq_some_iff.mp hroot
  obtain ⟨second, hsecond, hsame⟩ := Option.map_eq_some_iff.mp hmap
  have hrun := Run.addNode (Run.addNode Run.create hfirst) hsecond
  rw [hsame] at hrun
  rw [hroot, Option.map_some] at hbins
  exact ⟨root, hroot, (run_routing hrun).2.2.2.2.2.1, Option.some.inj hbins⟩

end Runs

end NeoLoader.RoutingRoot
