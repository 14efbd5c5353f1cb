import Mathlib.Data.Finset.Sort
import Mathlib.Data.List.Induction
import NeoLoader.KeyMapTotals

/-!
# Checks of an own address

Other nodes say from which address they see a node. The answers are counted for each host, and for each
port of a host. One pass over the hosts keeps the best one, but adds to the total only hosts that become the
best. Then helpers test the port, and without any valid test the port passes for open.
-/

namespace NeoLoader.AddressChecks

open KeyMap KeyMap.OrderedMap

variable {κ : Type*} [LinearOrder κ]

section Answers

/-- `SResult`: the answers for a host. -/
structure SResult where
  Count : ℕ
  Ports : OrderedMap ℕ ℕ

/-- The address that an answer names: a host and a port. -/
abbrev Address (κ : Type*) := κ × ℕ

/-- `Result.Ports[Port]++`. -/
def countPort (Ports : OrderedMap ℕ ℕ) (Port : ℕ) : OrderedMap ℕ ℕ :=
  Ports.insert Port ((Ports.get Port).getD 0 + 1)

/-- `HandleCheckRes` of an answer that is waited for. -/
def handleCheckRes (Results : OrderedMap κ SResult) (UsedAddress : Address κ) : OrderedMap κ SResult :=
  let Result := (Results.get UsedAddress.1).getD ⟨0, empty⟩
  Results.insert UsedAddress.1 ⟨Result.Count + 1, countPort Result.Ports UsedAddress.2⟩

/-- `Results` after some answers. -/
def resultsOf (answers : List (Address κ)) : OrderedMap κ SResult := answers.foldl handleCheckRes empty

/-- The loop over the ports of a host: the best port so far, and `PortCount`. -/
def bestPort (Ports : OrderedMap ℕ ℕ) : ℕ × ℕ :=
  Ports.entries.foldl (fun s K => if K.2 > s.2 then K else s) (0, 0)

/-- The variables of the loop over the hosts. -/
structure Best (κ : Type*) where
  TotalCount : ℕ
  BestCount : ℕ
  /-- The host of `BestAddress`, if it is valid. -/
  BestAddress : Option κ
  /-- The port of `BestAddress`, and `PortCount`. -/
  Port : ℕ × ℕ

/-- One round of the loop over the hosts. -/
def bestStep (s : Best κ) (J : κ × SResult) : Best κ :=
  if J.2.Count > s.BestCount then
    ⟨s.TotalCount + J.2.Count, J.2.Count, some J.1, bestPort J.2.Ports⟩
  else s

/-- The loop over the hosts. -/
def bestOf (Results : OrderedMap κ SResult) : Best κ := Results.entries.foldl bestStep ⟨0, 0, none, (0, 0)⟩

/-- What comes of a check. -/
inductive Verdict (κ : Type*) where
  /-- There are no answers. -/
  | none
  /-- The answers are in conflict. -/
  | conflict
  /-- `CurAddress` is confirmed. -/
  | confirmed (CurAddress : Address κ)
  deriving DecidableEq

/-- The end of a check in `Process`, with the ratio that is configured and the local port. -/
def checkAddress (AddressRatio : ℤ) (localPort : ℕ) (Results : OrderedMap κ SResult) : Verdict κ :=
  match (bestOf Results).BestAddress with
  | .none => .none
  | some BestAddress =>
    let best := bestOf Results
    if (best.BestCount : ℤ) * 100 < best.TotalCount * AddressRatio then .conflict
    else if best.Port.1 ≠ localPort ∧ (best.Port.2 : ℤ) * 100 < best.BestCount * AddressRatio then
      .confirmed (BestAddress, 0)
    else .confirmed (BestAddress, best.Port.1)

end Answers

section Reports

/-- What is heard of a test. -/
inductive Report (κ : Type*) where
  /-- A node has named the helper, `HandleTestAck`. -/
  | ack (helper : κ)
  /-- A packet of the helper has come, `HandleTestRes`. -/
  | res (helper : κ)

/-- `Reports` after what is heard of a test. -/
def handleReport (Reports : OrderedMap κ (Bool × Bool)) : Report κ → OrderedMap κ (Bool × Bool)
  | .ack helper => Reports.insert helper (true, ((Reports.get helper).getD (false, false)).2)
  | .res helper => Reports.insert helper (((Reports.get helper).getD (false, false)).1, true)

/-- `Reports` after some tests. -/
def reportsOf (reports : List (Report κ)) : OrderedMap κ (Bool × Bool) := reports.foldl handleReport empty

def tests (Reports : OrderedMap κ (Bool × Bool)) : ℕ := Reports.entries.countP fun J => J.2.1

def successes (Reports : OrderedMap κ (Bool × Bool)) : ℕ :=
  Reports.entries.countP fun J => J.2.1 && J.2.2

/-- `TestStage` of a test. -/
inductive Stage where
  | eCheckPort
  | eCheckAuxPort
  deriving DecidableEq

/-- What comes of a test. -/
inductive Status where
  /-- Open. -/
  | isOpen
  /-- Open, with a port that is forwarded. -/
  | openForwarded
  /-- Open behind a NAT. -/
  | openNATed
  /-- The other port is tested next. -/
  | checkAuxPort
  /-- Behind a NAT. -/
  | natted
  /-- Closed. -/
  | closed
  deriving DecidableEq

/-- The port is found open. -/
def Status.open? : Status → Bool
  | .isOpen | .openForwarded | .openNATed => true
  | .checkAuxPort | .natted | .closed => false

/-- The end of a test in `Process`, for the port of `CurAddress`. -/
def checkPort (AddressConRatio : ℤ) (localPort : ℕ) (stage : Stage) (curPort : ℕ)
    (Reports : OrderedMap κ (Bool × Bool)) : Status :=
  if tests Reports * AddressConRatio ≤ successes Reports * 100 then
    match stage with
    | .eCheckPort => if curPort = localPort then .isOpen else .openForwarded
    | .eCheckAuxPort => .openNATed
  else if stage = .eCheckPort ∧ curPort ≠ 0 ∧ curPort ≠ localPort then .checkAuxPort
  else if curPort ≠ 0 then .natted
  else .closed

end Reports

section Statement

/-- Number of the answers for a host. -/
def votes (answers : List (Address κ)) (host : κ) : ℕ := answers.countP fun a => a.1 = host

/-- Number of the answers for a host and a port. -/
def portVotes (answers : List (Address κ)) (host : κ) (port : ℕ) : ℕ := answers.count (host, port)

/-- What is expected of a check: an address is confirmed only with the ratio of all answers, with its most
reported port, which is given up for none if it is not the local one and lacks the ratio of the answers for
the host. -/
def AddressRight (AddressRatio : ℤ) (localPort : ℕ) (answers : List (Address κ)) : Prop :=
  ∀ host port, checkAddress AddressRatio localPort (resultsOf answers) = .confirmed (host, port) →
    (answers.length : ℤ) * AddressRatio ≤ votes answers host * 100 ∧
      ∃ most, (∀ p, portVotes answers host p ≤ portVotes answers host most) ∧
        (port = most ∨ port = 0 ∧ most ≠ localPort ∧
          (portVotes answers host most : ℤ) * 100 < votes answers host * AddressRatio)

/-- The helpers that nodes have named, the valid tests. -/
def named (reports : List (Report κ)) : Finset κ :=
  (reports.filterMap fun | .ack helper => some helper | .res _ => none).toFinset

/-- The helpers that a packet has come from. -/
def heard (reports : List (Report κ)) : Finset κ :=
  (reports.filterMap fun | .ack _ => none | .res helper => some helper).toFinset

/-- What is expected of a test: a port is open only if there are valid tests, and the ratio of them has
succeeded. -/
def PortRight (AddressConRatio : ℤ) (localPort : ℕ) (stage : Stage) (curPort : ℕ) (reports : List (Report κ)) : Prop :=
  (checkPort AddressConRatio localPort stage curPort (reportsOf reports)).open? = true → (named reports).Nonempty ∧
      ((named reports).card : ℤ) * AddressConRatio ≤ (named reports ∩ heard reports).card * 100

/-- The verdicts do not depend on the order of what is heard. -/
def OrderFree (AddressRatio AddressConRatio : ℤ) (localPort : ℕ) (stage : Stage) (curPort : ℕ)
    (answers : List (Address κ)) (reports : List (Report κ)) : Prop :=
  (∀ answers', answers'.Perm answers → checkAddress AddressRatio localPort (resultsOf answers') =
      checkAddress AddressRatio localPort (resultsOf answers)) ∧
  ∀ reports', reports'.Perm reports → checkPort AddressConRatio localPort stage curPort (reportsOf reports') =
      checkPort AddressConRatio localPort stage curPort (reportsOf reports)

/-- The answers for the hosts that have more of them than every host before, from some count on. -/
def risingCount : ℕ → List ℕ → ℕ
  | _, [] => 0
  | best, c :: counts => if c > best then c + risingCount c counts else risingCount best counts

/-- The counts of the hosts in their order. -/
def counts (answers : List (Address κ)) : List ℕ :=
  ((answers.map Prod.fst).toFinset.sort (· ≤ ·)).map (votes answers)

/-- The most answers for a host. -/
def mostVotes (answers : List (Address κ)) : ℕ := (counts answers).foldl max 0

/-- The host with the most answers has the ratio of all answers, or not even that of the answers for the
hosts that have more than every host before. -/
def RatioOk (AddressRatio : ℤ) (answers : List (Address κ)) : Prop :=
  (answers.length : ℤ) * AddressRatio ≤ mostVotes answers * 100 ∨
    (mostVotes answers : ℤ) * 100 < risingCount 0 (counts answers) * AddressRatio

end Statement

section Tally

/-- The ports of some answers, counted. -/
def portsOf (ports : List ℕ) : OrderedMap ℕ ℕ := ports.foldl countPort empty

/-- The ports that are named with a host. -/
def portsAt (answers : List (Address κ)) (host : κ) : List ℕ :=
  (answers.filter fun a => a.1 = host).map Prod.snd

/-- A port is counted as often as it comes. -/
theorem get_portsOf (ports : List ℕ) (p : ℕ) :
    (portsOf ports).get p = if 0 < ports.count p then some (ports.count p) else none := by
  unfold portsOf
  induction ports using List.reverseRecOn with
  | nil => simp
  | append_singleton ports port ih =>
    rw [List.foldl_append, List.count_append]
    simp only [List.foldl_cons, List.foldl_nil, countPort]
    by_cases hp : p = port
    · subst hp
      rw [get_insert_self, ih]
      by_cases hcount : 0 < ports.count p
      · simp [hcount]
      · simp [Nat.eq_zero_of_not_pos hcount]
    · rw [get_insert_of_ne _ _ hp, ih]
      simp [Ne.symm hp]

variable (answers : List (Address κ))

/-- A host is counted as often as it comes, with its ports. -/
theorem get_resultsOf (host : κ) : (resultsOf answers).get host = if 0 < votes answers host then
        some ⟨votes answers host, portsOf (portsAt answers host)⟩ else none := by
  unfold resultsOf votes portsAt
  induction answers using List.reverseRecOn with
  | nil => simp
  | append_singleton answers a ih =>
    rw [List.foldl_append, List.countP_append, List.filter_append, List.map_append]
    simp only [List.foldl_cons, List.foldl_nil, handleCheckRes]
    by_cases ha : host = a.1
    · subst ha
      rw [get_insert_self, ih]
      by_cases hcount : 0 < answers.countP fun b => b.1 = a.1
      · simp [hcount, portsOf]
      · have hzero := Nat.eq_zero_of_not_pos hcount
        have hnone : answers.filter (fun b => b.1 = a.1) = [] := by
          rw [List.countP_eq_length_filter] at hzero
          exact List.eq_nil_of_length_eq_zero hzero
        simp [hnone, hzero, portsOf]
    · rw [get_insert_of_ne _ _ ha, ih]
      have hzero : List.countP (fun b : Address κ => b.1 = host) [a] = 0 := by
        simp [Ne.symm ha]
      have hnone : List.filter (fun b : Address κ => b.1 = host) [a] = [] := by
        simp [Ne.symm ha]
      rw [hzero, hnone, List.map_nil, List.append_nil, Nat.add_zero]

/-- A host and a port are named as often as the port comes with the host. -/
theorem count_portsAt (host : κ) (port : ℕ) : (portsAt answers host).count port = portVotes answers host port := by
  induction answers with
  | nil => simp [portsAt, portVotes]
  | cons a answers ih =>
    unfold portsAt portVotes at *
    by_cases ha : a.1 = host
    · subst ha
      simp [List.count_cons, ih, Prod.ext_iff]
    · have hne : a ≠ (host, port) := fun h => ha (congrArg Prod.fst h)
      simp [ha, ih, hne]

/-- Hosts are counted alike in every order of the answers. -/
theorem resultsOf_perm {answers answers' : List (Address κ)} (h : answers'.Perm answers) :
    resultsOf answers' = resultsOf answers := by
  have hvotes : ∀ host, votes answers' host = votes answers host := fun host => h.countP_eq _
  have hports : ∀ host, portsOf (portsAt answers' host) = portsOf (portsAt answers host) := by
    intro host
    refine ext_get fun p => ?_
    have hcount := ((h.filter fun a => a.1 = host).map Prod.snd).count_eq p
    rw [get_portsOf, get_portsOf]
    unfold portsAt
    rw [hcount]
  refine ext_get fun host => ?_
  rw [get_resultsOf, get_resultsOf, hvotes, hports]

/-- The hosts of the results are those of the answers, in their order. -/
theorem counts_eq : (resultsOf answers).entries.map (fun J => J.2.Count) = counts answers := by
  have hkeys : ((resultsOf answers).entries.map Prod.fst).toFinset = (answers.map Prod.fst).toFinset := by
    ext host
    rw [List.mem_toFinset, List.mem_toFinset]
    have hvotes : host ∈ answers.map Prod.fst ↔ 0 < votes answers host := by
      simp [votes, List.countP_pos_iff]
    have hkey : host ∈ (resultsOf answers).entries.map Prod.fst ↔ ∃ v, (resultsOf answers).get host = some v := by
      simp [get_eq_some]
    rw [hvotes, hkey, get_resultsOf]
    by_cases h : 0 < votes answers host <;> simp [h]
  have hsorted : ((resultsOf answers).entries.map Prod.fst).toFinset.sort (· ≤ ·) =
      (resultsOf answers).entries.map Prod.fst := by
    refine (List.toFinset_sort _ (nodup_keys _)).mpr ?_
    exact List.Pairwise.map _ (fun _ _ h => le_of_lt h) (resultsOf answers).sorted
  unfold counts
  rw [← hkeys, hsorted, List.map_map]
  refine List.map_congr_left fun J hJ => ?_
  have hget := get_eq_some.mpr hJ
  rw [get_resultsOf] at hget
  by_cases h : 0 < votes answers J.1
  · rw [if_pos h] at hget
    exact (congrArg SResult.Count (Option.some.inj hget)).symm
  · simp [h] at hget

end Tally

section Scan

/-- The scan of the ports keeps the first one with the greatest count. -/
theorem scan_ports (l : List (ℕ × ℕ)) (s : ℕ × ℕ) :
    (∀ K ∈ l, K.2 ≤ (l.foldl (fun s K => if K.2 > s.2 then K else s) s).2) ∧
      s.2 ≤ (l.foldl (fun s K => if K.2 > s.2 then K else s) s).2 ∧
      (l.foldl (fun s K => if K.2 > s.2 then K else s) s = s ∨
        l.foldl (fun s K => if K.2 > s.2 then K else s) s ∈ l) := by
  induction l generalizing s with
  | nil => simp
  | cons K l ih =>
    rw [List.foldl_cons]
    by_cases hK : K.2 > s.2
    · simp only [if_pos hK]
      obtain ⟨hall, hfirst, hmem⟩ := ih K
      refine ⟨fun K' hK' => ?_, hK.le.trans hfirst, Or.inr ?_⟩
      · rcases List.mem_cons.mp hK' with rfl | hK'
        exacts [hfirst, hall K' hK']
      · rcases hmem with hmem | hmem
        · simp [hmem]
        · exact List.mem_cons_of_mem _ hmem
    · simp only [if_neg hK]
      obtain ⟨hall, hfirst, hmem⟩ := ih s
      refine ⟨fun K' hK' => ?_, hfirst, hmem.imp_right (List.mem_cons_of_mem _)⟩
      rcases List.mem_cons.mp hK' with rfl | hK'
      exacts [(not_lt.mp hK).trans hfirst, hall K' hK']

/-- The best port is one that is named most often, and its count is the number of the answers with it. -/
theorem bestPort_portsOf {ports : List ℕ} (hne : ports ≠ []) :
    (bestPort (portsOf ports)).2 = ports.count (bestPort (portsOf ports)).1 ∧
      ∀ p, ports.count p ≤ ports.count (bestPort (portsOf ports)).1 := by
  obtain ⟨hall, -, hmem⟩ := scan_ports (portsOf ports).entries (0, 0)
  change ∀ K ∈ (portsOf ports).entries, K.2 ≤ (bestPort (portsOf ports)).2 at hall
  change bestPort (portsOf ports) = (0, 0) ∨ bestPort (portsOf ports) ∈ (portsOf ports).entries at hmem
  have hle : ∀ p, ports.count p ≤ (bestPort (portsOf ports)).2 := by
    intro p
    by_cases hp : 0 < ports.count p
    · have hget : (portsOf ports).get p = some (ports.count p) := by rw [get_portsOf, if_pos hp]
      exact hall _ (get_eq_some.mp hget)
    · omega
  have hbest : (bestPort (portsOf ports)).2 = ports.count (bestPort (portsOf ports)).1 := by
    rcases hmem with hzero | hmem
    · obtain ⟨p, hp⟩ := List.exists_mem_of_ne_nil _ hne
      have hpos := List.count_pos_iff.mpr hp
      have := hle p
      rw [hzero] at this
      omega
    · have hget : (portsOf ports).get (bestPort (portsOf ports)).1 = some (bestPort (portsOf ports)).2 :=
        get_eq_some.mpr hmem
      rw [get_portsOf] at hget
      by_cases hp : 0 < ports.count (bestPort (portsOf ports)).1
      · rw [if_pos hp] at hget
        exact (Option.some.inj hget).symm
      · rw [if_neg hp] at hget
        simp at hget
  exact ⟨hbest, fun p => hbest ▸ hle p⟩

omit [LinearOrder κ] in
/-- The counts after a scan of the hosts. -/
theorem scan_counts (l : List (κ × SResult)) (s : Best κ) :
    (l.foldl bestStep s).BestCount = (l.map fun J => J.2.Count).foldl max s.BestCount ∧
      (l.foldl bestStep s).TotalCount = s.TotalCount + risingCount s.BestCount (l.map fun J => J.2.Count) := by
  induction l generalizing s with
  | nil => simp [risingCount]
  | cons J l ih =>
    rw [List.foldl_cons, List.map_cons, List.foldl_cons, risingCount]
    obtain ⟨hbest, htotal⟩ := ih (bestStep s J)
    rw [hbest, htotal, bestStep]
    by_cases hJ : J.2.Count > s.BestCount
    · simp [hJ, max_eq_right hJ.le, add_assoc]
    · simp [hJ, max_eq_left (not_lt.mp hJ)]

omit [LinearOrder κ] in
/-- The best host of a scan has the best count, with its best port. -/
theorem scan_host (l : List (κ × SResult)) (s : Best κ) :
    l.foldl bestStep s = s ∨ ∃ J ∈ l, (l.foldl bestStep s).BestAddress = some J.1 ∧
      (l.foldl bestStep s).BestCount = J.2.Count ∧ (l.foldl bestStep s).Port = bestPort J.2.Ports := by
  induction l generalizing s with
  | nil => simp
  | cons J l ih =>
    rw [List.foldl_cons]
    rcases ih (bestStep s J) with hsame | ⟨K, hK, hbest⟩
    · rw [hsame, bestStep]
      by_cases hJ : J.2.Count > s.BestCount
      · simp [hJ]
      · simp [hJ]
    · exact Or.inr ⟨K, List.mem_cons_of_mem _ hK, hbest⟩

theorem bestOf_counts (answers : List (Address κ)) : (bestOf (resultsOf answers)).BestCount = mostVotes answers ∧
      (bestOf (resultsOf answers)).TotalCount = risingCount 0 (counts answers) := by
  have h := scan_counts (resultsOf answers).entries ⟨0, 0, none, (0, 0)⟩
  rw [counts_eq] at h
  simpa [bestOf, mostVotes] using h

/-- The best host has the most answers, and its port is the best one of those named with it. -/
theorem bestOf_host {answers : List (Address κ)} {host : κ} (h : (bestOf (resultsOf answers)).BestAddress = some host) :
    votes answers host = mostVotes answers ∧ 0 < votes answers host ∧
      (bestOf (resultsOf answers)).Port = bestPort (portsOf (portsAt answers host)) := by
  have hscan := scan_host (resultsOf answers).entries ⟨0, 0, none, (0, 0)⟩
  change bestOf (resultsOf answers) = _ ∨ ∃ J ∈ (resultsOf answers).entries,
    (bestOf (resultsOf answers)).BestAddress = some J.1 ∧ (bestOf (resultsOf answers)).BestCount = J.2.Count ∧
      (bestOf (resultsOf answers)).Port = bestPort J.2.Ports at hscan
  rcases hscan with hsame | ⟨J, hJ, haddress, hcount, hport⟩
  · simp [hsame] at h
  · have hhost : J.1 = host := by simpa [haddress] using h
    have hget := get_eq_some.mpr hJ
    rw [get_resultsOf, hhost] at hget
    by_cases hv : 0 < votes answers host
    · rw [if_pos hv] at hget
      have hJ2 := Option.some.inj hget
      rw [(bestOf_counts answers).1] at hcount
      rw [← hJ2] at hcount hport
      exact ⟨hcount.symm, hv, hport⟩
    · simp [hv] at hget

/-- There is a best host as soon as there is an answer. -/
theorem exists_bestAddress {answers : List (Address κ)} (hne : answers ≠ []) :
    ∃ host, (bestOf (resultsOf answers)).BestAddress = some host := by
  obtain ⟨a, ha⟩ := List.exists_mem_of_ne_nil _ hne
  rcases scan_host (resultsOf answers).entries ⟨0, 0, none, (0, 0)⟩ with hsame | ⟨J, -, hJ, -⟩
  · have hvotes : 0 < votes answers a.1 := List.countP_pos_iff.mpr ⟨a, ha, by simp⟩
    have hmem : votes answers a.1 ∈ counts answers := by
      refine List.mem_map.mpr ⟨a.1, ?_, rfl⟩
      simpa using ⟨a.2, ha⟩
    have hmost : votes answers a.1 ≤ mostVotes answers := by
      unfold mostVotes
      rw [List.foldl_max_eq_max (List.ne_nil_of_mem hmem)]
      exact (List.le_max_of_mem hmem).trans (le_max_right _ _)
    have hzero := (bestOf_counts answers).1
    unfold bestOf at hzero
    rw [hsame] at hzero
    exact absurd hzero (by simp; omega)
  · exact ⟨J.1, hJ⟩

end Scan

section Tests

theorem countP_eq_card {ν : Type*} {m : OrderedMap κ ν} {p : ν → Bool} {keys : Finset κ}
    (h : ∀ k, k ∈ keys ↔ ∃ v, m.get k = some v ∧ p v = true) : (m.entries.countP fun J => p J.2) = keys.card := by
  have hnodup : ((m.entries.filter fun J => p J.2).map Prod.fst).Nodup :=
    m.nodup_keys.sublist (List.filter_sublist.map Prod.fst)
  have hkeys : keys = ((m.entries.filter fun J => p J.2).map Prod.fst).toFinset := by
    ext k
    simp [h, get_eq_some]
  rw [hkeys, List.toFinset_card_of_nodup hnodup, List.length_map, List.countP_eq_length_filter]

section

variable (reports : List (Report κ))

include reports

@[simp] theorem named_append_ack (helper : κ) : named (reports ++ [.ack helper]) = insert helper (named reports) := by
  ext k
  simp [named]

@[simp] theorem named_append_res (helper : κ) : named (reports ++ [.res helper]) = named reports := by
  simp [named]

@[simp] theorem heard_append_ack (helper : κ) : heard (reports ++ [.ack helper]) = heard reports := by
  simp [heard]

@[simp] theorem heard_append_res (helper : κ) : heard (reports ++ [.res helper]) = insert helper (heard reports) := by
  ext k
  simp [heard]

theorem get_reportsOf (helper : κ) : (reportsOf reports).get helper =
      if helper ∈ named reports ∨ helper ∈ heard reports then
        some (decide (helper ∈ named reports), decide (helper ∈ heard reports)) else none := by
  induction reports using List.reverseRecOn with
  | nil => simp [reportsOf, named, heard]
  | append_singleton reports r ih =>
    have hstep : reportsOf (reports ++ [r]) = handleReport (reportsOf reports) r := by simp [reportsOf]
    rw [hstep]
    cases r with
    | ack other =>
      rw [handleReport]
      by_cases hk : helper = other
      · subst hk
        rw [get_insert_self, ih]
        by_cases hn : helper ∈ named reports <;> by_cases hh : helper ∈ heard reports <;> simp [hn, hh]
      · rw [get_insert_of_ne _ _ hk, ih]
        simp [hk]
    | res other =>
      rw [handleReport]
      by_cases hk : helper = other
      · subst hk
        rw [get_insert_self, ih]
        by_cases hn : helper ∈ named reports <;> by_cases hh : helper ∈ heard reports <;> simp [hn, hh]
      · rw [get_insert_of_ne _ _ hk, ih]
        simp [hk]

theorem tests_eq : tests (reportsOf reports) = (named reports).card := by
  refine countP_eq_card (p := fun v : Bool × Bool => v.1) fun helper => ?_
  rw [get_reportsOf]
  by_cases h : helper ∈ named reports
  · simp [h]
  · simp [h]

theorem successes_eq : successes (reportsOf reports) = (named reports ∩ heard reports).card := by
  refine countP_eq_card (p := fun v : Bool × Bool => v.1 && v.2) fun helper => ?_
  rw [get_reportsOf, Finset.mem_inter]
  by_cases h : helper ∈ named reports
  · simp [h]
  · simp [h]

end

theorem reportsOf_perm {reports reports' : List (Report κ)} (h : reports'.Perm reports) :
    reportsOf reports' = reportsOf reports := by
  have hnamed : named reports' = named reports := List.toFinset_eq_of_perm _ _ (h.filterMap _)
  have hheard : heard reports' = heard reports := List.toFinset_eq_of_perm _ _ (h.filterMap _)
  refine ext_get fun helper => ?_
  rw [get_reportsOf, get_reportsOf, hnamed, hheard]

/-- A port is open exactly if the tests have their ratio. -/
theorem open_iff (AddressConRatio : ℤ) (localPort : ℕ) (stage : Stage) (curPort : ℕ) (reports : List (Report κ)) :
    (checkPort AddressConRatio localPort stage curPort (reportsOf reports)).open? = true ↔
      ((named reports).card : ℤ) * AddressConRatio ≤ (named reports ∩ heard reports).card * 100 := by
  unfold checkPort
  rw [tests_eq, successes_eq]
  by_cases hratio : ((named reports).card : ℤ) * AddressConRatio ≤ (named reports ∩ heard reports).card * 100
  · rw [if_pos hratio]
    cases stage with
    | eCheckPort => by_cases hport : curPort = localPort <;> simp [hport, hratio, Status.open?]
    | eCheckAuxPort => simp [hratio, Status.open?]
  · rw [if_neg hratio]
    simp only [hratio, iff_false]
    split_ifs <;> simp [Status.open?]

/-- A port passes for open without need only if no helper was named. -/
theorem portRight_iff (AddressConRatio : ℤ) (localPort : ℕ) (stage : Stage) (curPort : ℕ) (reports : List (Report κ)) :
    PortRight AddressConRatio localPort stage curPort reports ↔ (named reports).Nonempty := by
  unfold PortRight
  rw [open_iff]
  constructor
  · intro h
    by_contra hempty
    have hnamed := Finset.not_nonempty_iff_eq_empty.mp hempty
    exact hempty (h (by simp [hnamed])).1
  · exact fun h hratio => ⟨h, hratio⟩

end Tests

section Verdicts

/-- A check has confirmed the host with the most answers, as they are counted. -/
theorem checkAddress_confirmed {AddressRatio : ℤ} {localPort port : ℕ} {host : κ} {answers : List (Address κ)}
    (h : checkAddress AddressRatio localPort (resultsOf answers) = .confirmed (host, port)) :
    (bestOf (resultsOf answers)).BestAddress = some host ∧
      (risingCount 0 (counts answers) : ℤ) * AddressRatio ≤ mostVotes answers * 100 ∧
      (port = (bestOf (resultsOf answers)).Port.1 ∨ port = 0 ∧ (bestOf (resultsOf answers)).Port.1 ≠ localPort ∧
          ((bestOf (resultsOf answers)).Port.2 : ℤ) * 100 < mostVotes answers * AddressRatio) := by
  obtain ⟨hcount, htotal⟩ := bestOf_counts answers
  unfold checkAddress at h
  cases hbest : (bestOf (resultsOf answers)).BestAddress with
  | none => simp [hbest] at h
  | some best =>
    simp only [hbest, hcount, htotal] at h
    split_ifs at h with hconflict hport
    · simp only [Verdict.confirmed.injEq, Prod.mk.injEq] at h
      obtain ⟨rfl, rfl⟩ := h
      exact ⟨rfl, not_lt.mp hconflict, Or.inr ⟨rfl, hport⟩⟩
    · simp only [Verdict.confirmed.injEq, Prod.mk.injEq] at h
      obtain ⟨rfl, rfl⟩ := h
      exact ⟨rfl, not_lt.mp hconflict, Or.inl rfl⟩

theorem exists_confirmed {AddressRatio : ℤ} (localPort : ℕ) {answers : List (Address κ)} (hne : answers ≠ [])
    (h : (risingCount 0 (counts answers) : ℤ) * AddressRatio ≤ mostVotes answers * 100) :
    ∃ host port, checkAddress AddressRatio localPort (resultsOf answers) = .confirmed (host, port) := by
  obtain ⟨host, hhost⟩ := exists_bestAddress hne
  obtain ⟨hcount, htotal⟩ := bestOf_counts answers
  unfold checkAddress
  simp only [hhost, hcount, htotal, if_neg (not_lt.mpr h)]
  split_ifs <;> simp

/-- An address is confirmed as it should be exactly if the most answers have their ratio, or are in conflict
all the same. -/
theorem addressRight_iff (AddressRatio : ℤ) (localPort : ℕ) (answers : List (Address κ)) :
    AddressRight AddressRatio localPort answers ↔ RatioOk AddressRatio answers := by
  unfold AddressRight RatioOk
  constructor
  · intro h
    by_contra hnot
    obtain ⟨hratio, hcounted⟩ := not_or.mp hnot
    have hne : answers ≠ [] := by
      rintro rfl
      simp at hratio
    obtain ⟨host, port, hconfirmed⟩ := exists_confirmed localPort hne (not_lt.mp hcounted)
    have hvotes := bestOf_host (checkAddress_confirmed hconfirmed).1
    have hright := (h host port hconfirmed).1
    rw [hvotes.1] at hright
    exact hratio hright
  · intro h host port hconfirmed
    obtain ⟨hbest, hcounted, hport⟩ := checkAddress_confirmed hconfirmed
    obtain ⟨hvotes, hpos, hports⟩ := bestOf_host hbest
    have hne : portsAt answers host ≠ [] := by
      have hlength : (portsAt answers host).length = votes answers host := by
        simp [portsAt, votes, List.countP_eq_length_filter]
      exact List.ne_nil_of_length_pos (hlength ▸ hpos)
    obtain ⟨hcount, hmost⟩ := bestPort_portsOf hne
    simp only [count_portsAt] at hcount hmost
    rw [hports, hcount, ← hvotes] at hport
    rw [hvotes]
    refine ⟨h.resolve_right (not_lt.mpr hcounted), _, hmost, ?_⟩
    rw [← hvotes]
    exact hport

theorem orderFree (AddressRatio AddressConRatio : ℤ) (localPort : ℕ) (stage : Stage) (curPort : ℕ)
    (answers : List (Address κ)) (reports : List (Report κ)) :
    OrderFree AddressRatio AddressConRatio localPort stage curPort answers reports := by
  constructor
  · intro answers' h
    rw [resultsOf_perm h]
  · intro reports' h
    rw [reportsOf_perm h]

/-- Addresses and ports are found as they should be, in every order of what is heard, exactly if the most
answers for a host have the ratio of all of them, or not even that of those counted, and a helper was
named. -/
theorem check_right_iff (AddressRatio AddressConRatio : ℤ) (localPort : ℕ) (stage : Stage) (curPort : ℕ)
    (answers : List (Address κ)) (reports : List (Report κ)) :
    (AddressRight AddressRatio localPort answers ∧ PortRight AddressConRatio localPort stage curPort reports ∧
      OrderFree AddressRatio AddressConRatio localPort stage curPort answers reports) ↔
    RatioOk AddressRatio answers ∧ (named reports).Nonempty := by
  rw [addressRight_iff, portRight_iff]
  constructor
  · exact fun h => ⟨h.1, h.2.1⟩
  · exact fun h => ⟨h.1, h.2, orderFree _ _ _ _ _ _ _⟩

/-- Three answers for one host, and two for each of two others. -/
def splitAnswers : List (Address ℕ) := [(0, 7), (0, 7), (0, 7), (1, 7), (1, 7), (2, 7), (2, 7)]

/-- A host with three of seven answers is confirmed at a ratio of 60, and without any report the port is
open. -/
theorem verdicts_wrong : ¬ AddressRight 60 7 splitAnswers ∧ ¬ PortRight 30 7 .eCheckPort 7 ([] : List (Report ℕ)) := by
  constructor
  · intro h
    have hconfirmed : checkAddress 60 7 (resultsOf splitAnswers) = .confirmed (0, 7) := by decide
    have hratio := (h 0 7 hconfirmed).1
    have hvotes : votes splitAnswers 0 = 3 := by decide
    have hlength : splitAnswers.length = 7 := rfl
    rw [hvotes, hlength] at hratio
    omega
  · intro h
    have hopen : (checkPort 30 7 .eCheckPort 7 (reportsOf ([] : List (Report ℕ)))).open? = true := by
      decide
    simpa [named] using (h hopen).1

end Verdicts

end NeoLoader.AddressChecks
