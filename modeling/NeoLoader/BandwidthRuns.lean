import Mathlib.Tactic.LinearCombination
import NeoLoader.BandwidthManager

/-!
# Runs of the bandwidth manager

As long as the products of a round fit into 32 bits, no limit grants more than it has to distribute, and over
a run no more than it was credited. The bytes that are queued are those that are asked for and not assigned,
if no request is met at once while bytes are assigned to it.
-/

namespace NeoLoader.BandwidthRuns

open BandwidthManager CellFolds KeyMap KeyMap.OrderedMap

section Statement

def INT_MAX : ℤ := 2 ^ 31 - 1

/-- The bytes that are asked for and not assigned. -/
def outstanding (s : CBandwidthManager) : ℤ :=
  s.m_Queue.total fun _ pEntry => pEntry.iRequestSize - pEntry.iAssigned

/-- The priorities of all turns of a limit. -/
def prioritiesOf (entries : List (ℕ × SEntry)) (L : ℕ) : List ℤ :=
  ((turns entries).filter fun turn => turn.1 = L).map Prod.snd

/-- The quota that a limit has to distribute after an interval. -/
def distributable (pLimit : CBandwidthLimit) (iInterval : ℤ) : ℤ :=
  max (min (pLimit.m_iQuotaLeft + (pLimit.m_iLimit * iInterval + 500) / 1000) (pLimit.m_iLimit * 3)) 0

/-- An entry of the queue that goes by a limit which is not infinite. -/
def Uses (s : CBandwidthManager) (pEntry : SEntry) (L : ℕ) : Prop :=
  (∃ pLimiter, s.m_Queue.get pLimiter = some pEntry) ∧ L ∈ pEntry.Limits ∧ (s.limits L).m_iLimit ≠ 0

/-- What is expected of a state: no limit has granted more than it was credited and given back, the bytes
queued are those outstanding, and no entry has more assigned than it asks for. -/
structure StateRight (s : CBandwidthManager) : Prop where
  /-- The bytes granted through each limit. -/
  granted : ∀ L, (s.limits L).granted ≤ (s.limits L).credited + (s.limits L).returned
  /-- The bytes queued. -/
  queued : s.m_iQueuedBytes = outstanding s
  /-- The bytes assigned. -/
  assigned : ∀ pLimiter pEntry, s.m_Queue.get pLimiter = some pEntry →
    0 ≤ pEntry.iAssigned ∧ pEntry.iAssigned ≤ pEntry.iRequestSize

/-- What is expected of a round: no product overflows, no divisor is zero, and no limit grants more than it has
to distribute. -/
structure RoundRight (iInterval : ℤ) (s : CBandwidthManager) : Prop where
  /-- The products of the limits. -/
  products : ∀ pEntry L, Uses s pEntry L →
    (s.limits L).m_iLimit * clamp iInterval + 500 ≤ INT_MAX ∧ (s.limits L).m_iLimit * 3 ≤ INT_MAX
  /-- The products with the priorities, and the divisors. -/
  shares : ∀ pEntry L, Uses s pEntry L →
    (prepared (clamp iInterval) s L).m_iDistributeQuota * pEntry.iPriority < 2 ^ 32 ∧
      0 < (prepared (clamp iInterval) s L).m_iTmp
  /-- The bytes granted in the round. -/
  granted : ∀ L, (s.limits L).m_iLimit ≠ 0 → ((Process iInterval s).limits L).granted - (s.limits L).granted ≤
      (prepared (clamp iInterval) s L).m_iDistributeQuota

/-- What is expected of a step: rounds are as they should be. -/
def StepRight (s : CBandwidthManager) : Op → Prop
  | .Process iInterval => RoundRight iInterval s
  | _ => True

/-- What is expected of a run, in each state and at each step. -/
def RunRight (s : CBandwidthManager) : List Op → Prop
  | [] => StateRight s
  | op :: ops => StateRight s ∧ StepRight s op ∧ RunRight (step s op) ops

/-- When a step goes well. In a round the products of each limit in use have to fit into 32 bits, as does the
sum of the priorities at it. A request has to leave a sum of requests that fits, and an entry without a limit
may have nothing assigned. Limits are set to what `SetLimit` admits. -/
def Meets (s : CBandwidthManager) : Op → Prop
  | .Process iInterval => 0 ≤ iInterval ∧ ∀ pEntry L, Uses s pEntry L →
      (s.limits L).m_iLimit * clamp iInterval + 500 ≤ INT_MAX ∧
        distributable (s.limits L) (clamp iInterval) * pEntry.iPriority < 2 ^ 32 ∧
        (prioritiesOf s.m_Queue.entries L).sum ≤ INT_MAX
  | .RequestBandwidth Limits pLimiter iAmount =>
    let found := (s.m_Queue.get pLimiter).getD SEntry.new
    0 ≤ iAmount ∧ iAmount ≤ INT_MAX ∧
      outstanding s + ((raiseRequest iAmount found).iRequestSize - found.iRequestSize) ≤ INT_MAX ∧
      (isLimited s.limits Limits = false → found.iAssigned = 0)
  | .SetLimit _ iLimit => iLimit = -1 ∨ 0 ≤ iLimit ∧ iLimit < INT_MAX / 31
  | _ => True

/-- All steps of a run go well. -/
def AllMeet (s : CBandwidthManager) : List Op → Prop
  | [] => True
  | op :: ops => Meets s op ∧ AllMeet (step s op) ops

end Statement

section Numbers

theorem int32_eq {n : ℤ} (hlow : -2 ^ 31 ≤ n) (hhigh : n ≤ INT_MAX) : int32 n = n := by
  unfold int32 INT_MAX at *
  rw [Int.bmod_eq_of_le] <;> omega

theorem uint32_eq {n : ℤ} (hlow : 0 ≤ n) (hhigh : n < 2 ^ 32) : uint32 n = n :=
  Int.emod_eq_of_lt hlow hhigh

theorem minQuota_eq {x iQuota : ℤ} (hx : 0 ≤ x) (hlow : 0 ≤ iQuota) (hhigh : iQuota ≤ INT_MAX) :
    minQuota x iQuota = min x iQuota := by
  have hmax : INT_MAX = 2 ^ 31 - 1 := rfl
  unfold minQuota
  rw [uint32_eq hlow (by omega)]
  split_ifs with h
  · rw [int32_eq (by omega) (by omega), min_eq_left h.le]
  · rw [int32_eq (by omega) hhigh, min_eq_right (not_lt.mp h)]

end Numbers

section Preparation

/-- A limit is as it should be. -/
structure LimitOk (pLimit : CBandwidthLimit) : Prop where
  /-- `m_iLimit` was admitted. -/
  limit : 0 ≤ pLimit.m_iLimit ∧ pLimit.m_iLimit < INT_MAX / 31
  /-- `m_iPriority` is not negative. -/
  priority : 0 ≤ pLimit.m_iPriority
  /-- No more quota was used than there was. -/
  quota : 0 ≤ pLimit.m_iQuotaLeft
  /-- What there is to distribute is not negative. -/
  distribute : 0 ≤ pLimit.m_iDistributeQuota
  /-- The quota left was credited or returned, and not yet granted. -/
  balance : pLimit.m_iQuotaLeft ≤ pLimit.credited + pLimit.returned - pLimit.granted

variable {pLimit : CBandwidthLimit}

theorem LimitOk.triple (h : LimitOk pLimit) : int32 (pLimit.m_iLimit * 3) = pLimit.m_iLimit * 3 := by
  have hlimit := h.limit
  have hmax : INT_MAX = 2 ^ 31 - 1 := rfl
  exact int32_eq (by omega) (by omega)

theorem quotaOf_eq {iLimit iInterval : ℤ} (hlimit : 0 ≤ iLimit) (hinterval : 0 ≤ iInterval)
    (hfits : iLimit * iInterval + 500 ≤ INT_MAX) :
    CBandwidthLimit.quotaOf iLimit iInterval = (iLimit * iInterval + 500) / 1000 := by
  have hproduct : 0 ≤ iLimit * iInterval := mul_nonneg hlimit hinterval
  unfold CBandwidthLimit.quotaOf
  rw [int32_eq (by omega) hfits, Int.tdiv_eq_ediv_of_nonneg (by omega)]

/-- A limit after its quota was updated. -/
theorem LimitOk.process (h : LimitOk pLimit) {iInterval : ℤ} (hinterval : 0 ≤ iInterval)
    (hfits : pLimit.m_iLimit ≠ 0 → pLimit.m_iLimit * iInterval + 500 ≤ INT_MAX) :
    LimitOk (pLimit.Process iInterval) ∧ (pLimit.m_iLimit ≠ 0 →
      (pLimit.Process iInterval).m_iDistributeQuota = distributable pLimit iInterval ∧
      (pLimit.Process iInterval).m_iQuotaLeft = distributable pLimit iInterval) := by
  unfold CBandwidthLimit.Process
  by_cases hzero : pLimit.m_iLimit = 0
  · rw [if_pos hzero]
    exact ⟨h, fun hne => absurd hzero hne⟩
  · rw [if_neg hzero]
    have hproduct : 0 ≤ pLimit.m_iLimit * iInterval := mul_nonneg h.limit.1 hinterval
    have hlimit := h.limit
    have hquota := h.quota
    have hbalance := h.balance
    rw [quotaOf_eq h.limit.1 hinterval (hfits hzero), h.triple]
    unfold distributable
    have hadded : 0 ≤ (pLimit.m_iLimit * iInterval + 500) / 1000 := Int.ediv_nonneg (by omega) (by omega)
    generalize (pLimit.m_iLimit * iInterval + 500) / 1000 = added at hadded
    refine ⟨⟨h.limit, h.priority, ?_, le_max_right _ _, ?_⟩, fun _ => ⟨rfl, ?_⟩⟩
    · dsimp only
      omega
    · dsimp only
      omega
    · dsimp only
      omega

theorem LimitOk.setTmp (h : LimitOk pLimit) (tmp : ℤ) : LimitOk { pLimit with m_iTmp := tmp } :=
  ⟨h.limit, h.priority, h.quota, h.distribute, h.balance⟩

/-- The later turns of a limit only add priorities. -/
theorem foldl_addPriority {iInterval : ℤ} {ps : List ℤ} (hps : ∀ p ∈ ps, 0 < p)
    (htmp : 0 < pLimit.m_iTmp) (hfits : pLimit.m_iTmp + ps.sum ≤ INT_MAX) :
    ps.foldl (fun v p => addPriority iInterval p v) pLimit =
      { pLimit with m_iTmp := pLimit.m_iTmp + ps.sum } := by
  induction ps generalizing pLimit with
  | nil => simp
  | cons p ps ih =>
    have hp := hps p List.mem_cons_self
    have hrest : 0 ≤ ps.sum := List.sum_nonneg fun q hq => (hps q (List.mem_cons_of_mem _ hq)).le
    rw [List.sum_cons] at hfits
    have hfirst : addPriority iInterval p pLimit = { pLimit with m_iTmp := pLimit.m_iTmp + p } := by
      have hsum : int32 (pLimit.m_iTmp + p) = pLimit.m_iTmp + p := by
        have hmax : INT_MAX = 2 ^ 31 - 1 := rfl
        exact int32_eq (by omega) (by omega)
      simp only [addPriority, if_neg htmp.ne', hsum]
    rw [List.foldl_cons, hfirst, ih (fun q hq => hps q (List.mem_cons_of_mem _ hq))
      (by dsimp only; omega) (by dsimp only; omega), List.sum_cons]
    simp [add_assoc]

/-- All turns of a limit process it once and add the priorities. -/
theorem foldl_addPriority_first {iInterval : ℤ} {ps : List ℤ} (hps : ∀ p ∈ ps, 0 < p) (hne : ps ≠ [])
    (hfits : ps.sum ≤ INT_MAX) (pLimit : CBandwidthLimit) :
    ps.foldl (fun v p => addPriority iInterval p v) { pLimit with m_iTmp := 0 } =
      { pLimit.Process iInterval with m_iTmp := ps.sum } := by
  cases ps with
  | nil => exact absurd rfl hne
  | cons p ps =>
    have hp := hps p List.mem_cons_self
    have hrest : 0 ≤ ps.sum := List.sum_nonneg fun q hq => (hps q (List.mem_cons_of_mem _ hq)).le
    rw [List.sum_cons] at hfits
    have hfirst : addPriority iInterval p { pLimit with m_iTmp := 0 } =
        { pLimit.Process iInterval with m_iTmp := p } := by
      unfold addPriority CBandwidthLimit.Process
      by_cases hzero : pLimit.m_iLimit = 0
      · simp [hzero, int32_eq (show -2 ^ 31 ≤ p by omega) (by omega)]
      · simp [hzero, int32_eq (show -2 ^ 31 ≤ p by omega) (by omega)]
    rw [List.foldl_cons, hfirst, foldl_addPriority (fun q hq => hps q (List.mem_cons_of_mem _ hq))
      hp hfits, List.sum_cons]

/-- A limit that is infinite keeps all but `m_iTmp`. -/
theorem foldl_addPriority_infinite {iInterval : ℤ} (ps : List ℤ) (hzero : pLimit.m_iLimit = 0) :
    ∃ tmp, ps.foldl (fun v p => addPriority iInterval p v) pLimit = { pLimit with m_iTmp := tmp } := by
  induction ps generalizing pLimit with
  | nil => exact ⟨pLimit.m_iTmp, rfl⟩
  | cons p ps ih =>
    have hfirst : addPriority iInterval p pLimit =
        { pLimit with m_iTmp := int32 (pLimit.m_iTmp + p) } := by
      unfold addPriority CBandwidthLimit.Process
      simp [hzero]
    rw [List.foldl_cons, hfirst]
    exact ih hzero

/-- A limit after the first loop. -/
theorem clearTmp_apply (entries : List (ℕ × SEntry)) (limits : ℕ → CBandwidthLimit) (L : ℕ) :
    clearTmp entries limits L = if prioritiesOf entries L = [] then limits L else { limits L with m_iTmp := 0 } := by
  have hagain : ∀ (turns : List (ℕ × ℤ)) (v : CBandwidthLimit), turns.foldl
      (fun v _ => { v with m_iTmp := 0 }) v = if turns = [] then v else { v with m_iTmp := 0 } := by
    intro turns
    induction turns with
    | nil => intro v; rfl
    | cons turn turns ih =>
      intro v
      rw [List.foldl_cons, ih]
      split_ifs <;> simp_all
  unfold clearTmp prioritiesOf
  refine (foldl_modifyCell Prod.fst (fun _ (pLimit : CBandwidthLimit) => { pLimit with m_iTmp := 0 })
    _ _ _).trans ?_
  rw [hagain]
  simp only [List.map_eq_nil_iff]

theorem prepared_apply (iInterval : ℤ) (s : CBandwidthManager) (L : ℕ) :
    prepared iInterval s L = (prioritiesOf s.m_Queue.entries L).foldl (fun v p => addPriority iInterval p v)
      (if prioritiesOf s.m_Queue.entries L = [] then s.limits L else { s.limits L with m_iTmp := 0 }) := by
  unfold prepared updateQuota
  rw [foldl_modifyCell Prod.fst (fun turn => addPriority iInterval turn.2), clearTmp_apply]
  unfold prioritiesOf
  rw [List.foldl_map]

end Preparation

section States

/-- An entry is as it should be. -/
structure EntryOk (pEntry : SEntry) : Prop where
  /-- No more is assigned than is asked for. -/
  assigned : 0 ≤ pEntry.iAssigned ∧ pEntry.iAssigned ≤ pEntry.iRequestSize
  /-- The request is an `int`. -/
  request : pEntry.iRequestSize ≤ INT_MAX
  /-- The priority is positive. -/
  priority : 0 < pEntry.iPriority

/-- The queue is as it should be. -/
structure QueueOk (s : CBandwidthManager) : Prop where
  /-- Its entries are. -/
  entries : ∀ pLimiter pEntry, s.m_Queue.get pLimiter = some pEntry → EntryOk pEntry
  /-- The bytes queued are those outstanding. -/
  queued : s.m_iQueuedBytes = outstanding s
  /-- They are an `int`. -/
  fits : outstanding s ≤ INT_MAX

/-- A state is as it should be. -/
structure StateOk (s : CBandwidthManager) : Prop extends QueueOk s where
  /-- Its limits are. -/
  limits : ∀ L, LimitOk (s.limits L)

theorem outstanding_nonneg {s : CBandwidthManager}
    (h : ∀ pLimiter pEntry, s.m_Queue.get pLimiter = some pEntry → EntryOk pEntry) : 0 ≤ outstanding s := by
  refine total_nonneg fun k pEntry hget => ?_
  have hassigned := (h k pEntry hget).assigned
  omega

theorem StateOk.right {s : CBandwidthManager} (h : StateOk s) : StateRight s where
  granted L := by
    have hquota := (h.limits L).quota
    have hbalance := (h.limits L).balance
    omega
  queued := h.queued
  assigned k pEntry hget := (h.entries k pEntry hget).assigned

/-- The turns of a limit at the first entry and at the others. -/
theorem prioritiesOf_cons (I : ℕ × SEntry) (entries : List (ℕ × SEntry)) (L : ℕ) : prioritiesOf (I :: entries) L =
      List.replicate (I.2.Limits.count L) I.2.iPriority ++ prioritiesOf entries L := by
  unfold prioritiesOf turns
  rw [List.flatMap_cons, List.filter_append, List.map_append]
  congr 1
  induction I.2.Limits with
  | nil => rfl
  | cons L' Limits ih =>
    by_cases hL : L' = L
    · subst hL
      simp [List.replicate_succ, ih]
    · simp [hL, ih]

variable {L : ℕ}

theorem mem_prioritiesOf {entries : List (ℕ × SEntry)} {iPriority : ℤ} :
    iPriority ∈ prioritiesOf entries L ↔ ∃ I ∈ entries, L ∈ I.2.Limits ∧ I.2.iPriority = iPriority := by
  simp [prioritiesOf, turns]

theorem QueueOk.priorities_pos {s : CBandwidthManager} (h : QueueOk s) (L : ℕ) :
    ∀ iPriority ∈ prioritiesOf s.m_Queue.entries L, 0 < iPriority := by
  intro iPriority hmem
  obtain ⟨I, hI, -, rfl⟩ := mem_prioritiesOf.mp hmem
  exact (h.entries _ _ (get_eq_some.mpr hI)).priority

variable {pEntry : SEntry}

theorem Uses.turns {s : CBandwidthManager} (h : Uses s pEntry L) : prioritiesOf s.m_Queue.entries L ≠ [] := by
  obtain ⟨⟨pLimiter, hget⟩, hL, -⟩ := h
  exact List.ne_nil_of_mem (mem_prioritiesOf.mpr ⟨(pLimiter, pEntry), get_eq_some.mp hget, hL, rfl⟩)

theorem exists_uses {s : CBandwidthManager} (hturns : prioritiesOf s.m_Queue.entries L ≠ [])
    (hlimit : (s.limits L).m_iLimit ≠ 0) : ∃ pEntry, Uses s pEntry L := by
  obtain ⟨iPriority, hmem⟩ := List.exists_mem_of_ne_nil _ hturns
  obtain ⟨I, hI, hL, -⟩ := mem_prioritiesOf.mp hmem
  exact ⟨I.2, ⟨I.1, get_eq_some.mpr hI⟩, hL, hlimit⟩

variable {s : CBandwidthManager} {iInterval : ℤ}

/-- A limit that is not in use keeps all but `m_iTmp` in the first two loops. -/
theorem prepared_unused (L : ℕ) (h : ∀ pEntry, ¬ Uses s pEntry L) :
    ∃ tmp, prepared iInterval s L = { s.limits L with m_iTmp := tmp } := by
  rw [prepared_apply]
  by_cases hzero : (s.limits L).m_iLimit = 0
  · split_ifs
    · exact foldl_addPriority_infinite _ hzero
    · exact foldl_addPriority_infinite _ hzero
  · have hnone : prioritiesOf s.m_Queue.entries L = [] := by
      by_contra hturns
      obtain ⟨pEntry, huses⟩ := exists_uses hturns hzero
      exact h pEntry huses
    rw [hnone]
    exact ⟨_, rfl⟩

theorem prepared_used (h : QueueOk s) (huses : Uses s pEntry L)
    (hfits : (prioritiesOf s.m_Queue.entries L).sum ≤ INT_MAX) :
    prepared iInterval s L = { (s.limits L).Process iInterval with
      m_iTmp := (prioritiesOf s.m_Queue.entries L).sum } := by
  rw [prepared_apply, if_neg huses.turns]
  exact foldl_addPriority_first (h.priorities_pos L) huses.turns hfits _

theorem process_fields (pLimit : CBandwidthLimit) (iInterval : ℤ) :
    (pLimit.Process iInterval).m_iLimit = pLimit.m_iLimit ∧ (pLimit.Process iInterval).granted = pLimit.granted := by
  unfold CBandwidthLimit.Process
  split_ifs <;> simp

/-- The limits after the first two loops are as they should be. -/
theorem StateOk.prepared (h : StateOk s) (hmeets : Meets s (.Process iInterval)) (L : ℕ) :
    LimitOk (BandwidthManager.prepared (clamp iInterval) s L) ∧
      (BandwidthManager.prepared (clamp iInterval) s L).m_iLimit = (s.limits L).m_iLimit ∧
      (BandwidthManager.prepared (clamp iInterval) s L).granted = (s.limits L).granted := by
  have hclamp : 0 ≤ clamp iInterval := le_min hmeets.1 (by simp)
  by_cases huses : ∃ pEntry, Uses s pEntry L
  · obtain ⟨pEntry, huses⟩ := huses
    obtain ⟨hproduct, -, hsum⟩ := hmeets.2 pEntry L huses
    rw [prepared_used h.toQueueOk huses hsum]
    have hprocess := (h.limits L).process hclamp fun _ => hproduct
    exact ⟨hprocess.1.setTmp _, process_fields _ _⟩
  · have hunused : ∃ tmp, BandwidthManager.prepared (clamp iInterval) s L =
        { s.limits L with m_iTmp := tmp } := prepared_unused L (not_exists.mp huses)
    obtain ⟨tmp, htmp⟩ := hunused
    rw [htmp]
    exact ⟨(h.limits L).setTmp _, rfl, rfl⟩

/-- A limit in use has all its quota to distribute, and the sum of its priorities. -/
theorem StateOk.prepared_shares (h : StateOk s) (hmeets : Meets s (.Process iInterval)) (huses : Uses s pEntry L) :
    (BandwidthManager.prepared (clamp iInterval) s L).m_iDistributeQuota =
        distributable (s.limits L) (clamp iInterval) ∧
      (BandwidthManager.prepared (clamp iInterval) s L).m_iQuotaLeft = distributable (s.limits L) (clamp iInterval) ∧
      (BandwidthManager.prepared (clamp iInterval) s L).m_iTmp = (prioritiesOf s.m_Queue.entries L).sum ∧
      0 < (prioritiesOf s.m_Queue.entries L).sum := by
  have hclamp : 0 ≤ clamp iInterval := le_min hmeets.1 (by simp)
  obtain ⟨hproduct, -, hsum⟩ := hmeets.2 pEntry L huses
  rw [prepared_used h.toQueueOk huses hsum]
  obtain ⟨hdistribute, hquota⟩ := ((h.limits L).process hclamp fun _ => hproduct).2 huses.2.2
  have hpos : 0 < (prioritiesOf s.m_Queue.entries L).sum :=
    List.sum_pos _ (h.priorities_pos L) huses.turns
  exact ⟨hdistribute, hquota, rfl, hpos⟩

end States

section Sharing

variable {limits limits' : ℕ → CBandwidthLimit} {iInterval : ℤ}

/-- Limits that share alike. -/
def SameShares (limits limits' : ℕ → CBandwidthLimit) : Prop :=
  ∀ L, (limits' L).m_iLimit = (limits L).m_iLimit ∧
    (limits' L).m_iDistributeQuota = (limits L).m_iDistributeQuota ∧ (limits' L).m_iTmp = (limits L).m_iTmp

theorem quotaFor_congr (h : SameShares limits limits') (pEntry : SEntry) :
    quotaFor limits' pEntry = quotaFor limits pEntry := by
  unfold quotaFor
  congr 1
  funext iQuota L
  obtain ⟨hlimit, hdistribute, htmp⟩ := h L
  simp only [share, hlimit, hdistribute, htmp]

/-- A limit that is used some times for the same quota. -/
theorem useQuota_iterate (iQuota : ℤ) (n : ℕ) (pLimit : CBandwidthLimit) :
    (CBandwidthLimit.UseQuota iQuota)^[n] pLimit = if pLimit.m_iLimit = 0 then pLimit
      else { pLimit with
        m_iQuotaLeft := pLimit.m_iQuotaLeft - iQuota * n
        granted := pLimit.granted + iQuota * n } := by
  induction n generalizing pLimit with
  | zero => simp
  | succ n ih =>
    rw [Function.iterate_succ_apply, ih, CBandwidthLimit.UseQuota]
    by_cases hzero : pLimit.m_iLimit = 0
    · simp [hzero]
    · simp only [if_neg hzero, Nat.cast_succ]
      congr 1
      · ring
      · ring

theorem processEntry_limits (s : CBandwidthManager) (I : ℕ × SEntry) (L : ℕ) : (processEntry iInterval s I).limits L =
      if (s.limits L).m_iLimit = 0 then s.limits L
      else { s.limits L with
        m_iQuotaLeft := (s.limits L).m_iQuotaLeft - quotaFor s.limits I.2 * I.2.Limits.count L
        granted := (s.limits L).granted + quotaFor s.limits I.2 * I.2.Limits.count L } := by
  unfold processEntry forLimits
  dsimp only
  rw [foldl_modifyCell_iterate, useQuota_iterate]

theorem processEntry_sameShares (s : CBandwidthManager) (I : ℕ × SEntry) :
    SameShares s.limits (processEntry iInterval s I).limits := by
  intro L
  rw [processEntry_limits]
  split_ifs <;> simp

/-- The bytes that some entries get through a limit. -/
def usedOf (limits : ℕ → CBandwidthLimit) (entries : List (ℕ × SEntry)) (L : ℕ) : ℤ :=
  (entries.map fun I => quotaFor limits I.2 * I.2.Limits.count L).sum

/-- A limit after some entries have got their quota. -/
theorem foldl_processEntry_limits (entries : List (ℕ × SEntry)) (s : CBandwidthManager) (L : ℕ) :
    (entries.foldl (processEntry iInterval) s).limits L = if (s.limits L).m_iLimit = 0 then s.limits L
      else { s.limits L with
        m_iQuotaLeft := (s.limits L).m_iQuotaLeft - usedOf s.limits entries L
        granted := (s.limits L).granted + usedOf s.limits entries L } := by
  induction entries generalizing s with
  | nil => simp [usedOf]
  | cons I entries ih =>
    have hsame : SameShares s.limits (processEntry iInterval s I).limits := processEntry_sameShares s I
    have hused : usedOf (processEntry iInterval s I).limits entries L = usedOf s.limits entries L := by
      unfold usedOf
      simp only [quotaFor_congr hsame]
    rw [List.foldl_cons, ih, hused, (hsame L).1, processEntry_limits]
    by_cases hzero : (s.limits L).m_iLimit = 0
    · simp [hzero]
    · simp only [if_neg hzero]
      congr 1
      · simp [usedOf]
        ring
      · simp [usedOf]
        ring

theorem share_nonneg (pLimit : CBandwidthLimit) (iPriority : ℤ) : 0 ≤ share pLimit iPriority :=
  Int.ediv_nonneg (Int.emod_nonneg _ (by simp)) (Int.emod_nonneg _ (by simp))

/-- A share of a product that fits. -/
theorem share_mul_le {pLimit : CBandwidthLimit} {iPriority : ℤ} (hquota : 0 ≤ pLimit.m_iDistributeQuota)
    (hpriority : 0 < iPriority) (hfits : pLimit.m_iDistributeQuota * iPriority < 2 ^ 32)
    (htmp : 0 < pLimit.m_iTmp) (htmpFits : pLimit.m_iTmp ≤ INT_MAX) :
    share pLimit iPriority * pLimit.m_iTmp ≤ pLimit.m_iDistributeQuota * iPriority := by
  have hmax : INT_MAX = 2 ^ 31 - 1 := rfl
  have hle : pLimit.m_iDistributeQuota ≤ pLimit.m_iDistributeQuota * iPriority :=
    le_mul_of_one_le_right hquota hpriority
  unfold share
  rw [uint32_eq hquota (by omega), uint32_eq (mul_nonneg hquota hpriority.le) hfits, uint32_eq htmp.le (by omega)]
  exact Int.ediv_mul_le _ htmp.ne'

/-- An entry gets no more than it asks for, and no more than its share of each limit. -/
theorem quotaFor_spec (limits : ℕ → CBandwidthLimit) {pEntry : SEntry} (h : EntryOk pEntry) :
    0 ≤ quotaFor limits pEntry ∧ quotaFor limits pEntry ≤ pEntry.iRequestSize - pEntry.iAssigned ∧
      ∀ L ∈ pEntry.Limits, (limits L).m_iLimit ≠ 0 → quotaFor limits pEntry ≤ share (limits L) pEntry.iPriority := by
  have hloop : ∀ (Limits : List ℕ) (iQuota : ℤ), 0 ≤ iQuota → iQuota ≤ INT_MAX →
      0 ≤ Limits.foldl (fun iQuota pLimit => if (limits pLimit).m_iLimit = 0 then iQuota
        else minQuota (share (limits pLimit) pEntry.iPriority) iQuota) iQuota ∧
      Limits.foldl (fun iQuota pLimit => if (limits pLimit).m_iLimit = 0 then iQuota
        else minQuota (share (limits pLimit) pEntry.iPriority) iQuota) iQuota ≤ iQuota ∧
      ∀ L ∈ Limits, (limits L).m_iLimit ≠ 0 →
        Limits.foldl (fun iQuota pLimit => if (limits pLimit).m_iLimit = 0 then iQuota
          else minQuota (share (limits pLimit) pEntry.iPriority) iQuota) iQuota ≤
            share (limits L) pEntry.iPriority := by
    intro Limits
    induction Limits with
    | nil => intro iQuota hlow _; simp [hlow]
    | cons L Limits ih =>
      intro iQuota hlow hhigh
      rw [List.foldl_cons]
      by_cases hzero : (limits L).m_iLimit = 0
      · rw [if_pos hzero]
        obtain ⟨hnonneg, hle, hshare⟩ := ih iQuota hlow hhigh
        refine ⟨hnonneg, hle, fun L' hL' hlimit => ?_⟩
        rcases List.mem_cons.mp hL' with rfl | hL'
        exacts [absurd hzero hlimit, hshare L' hL' hlimit]
      · have hx := share_nonneg (limits L) pEntry.iPriority
        rw [if_neg hzero, minQuota_eq hx hlow hhigh]
        obtain ⟨hnonneg, hle, hshare⟩ := ih (min (share (limits L) pEntry.iPriority) iQuota)
          (le_min hx hlow) ((min_le_right _ _).trans hhigh)
        refine ⟨hnonneg, hle.trans (min_le_right _ _), fun L' hL' hlimit => ?_⟩
        rcases List.mem_cons.mp hL' with rfl | hL'
        exacts [hle.trans (min_le_left _ _), hshare L' hL' hlimit]
  have hassigned := h.assigned
  have hrequest := h.request
  exact hloop pEntry.Limits _ (by omega) (by omega)

/-- Entries that each get no more than their share of a limit get no more than all of it. -/
theorem usedOf_mul_le {entries : List (ℕ × SEntry)} {L : ℕ} {quota tmp : ℤ}
    (h : ∀ I ∈ entries, L ∈ I.2.Limits → quotaFor limits I.2 * tmp ≤ quota * I.2.iPriority) :
    usedOf limits entries L * tmp ≤ quota * (prioritiesOf entries L).sum := by
  induction entries with
  | nil => simp [usedOf, prioritiesOf, turns]
  | cons I entries ih =>
    have hrest := ih fun I' hI' => h I' (List.mem_cons_of_mem _ hI')
    have hfirst : quotaFor limits I.2 * I.2.Limits.count L * tmp ≤ quota * (I.2.Limits.count L * I.2.iPriority) := by
      by_cases hL : L ∈ I.2.Limits
      · have hmul := mul_le_mul_of_nonneg_right (h I List.mem_cons_self hL)
          (show (0 : ℤ) ≤ I.2.Limits.count L by positivity)
        linarith
      · simp [List.count_eq_zero_of_not_mem hL]
    rw [prioritiesOf_cons, List.sum_append, List.sum_replicate, nsmul_eq_mul]
    unfold usedOf at *
    rw [List.map_cons, List.sum_cons]
    linarith

end Sharing

section Serving

variable {s : CBandwidthManager} {iInterval : ℤ} {pEntry : SEntry}

/-- An entry that is served or not asks for what it did not get. -/
theorem serve_spec (h : EntryOk pEntry) :
    EntryOk (serve pEntry).1 ∧ (serve pEntry).1.iRequestSize - (serve pEntry).1.iAssigned =
      pEntry.iRequestSize - pEntry.iAssigned := by
  have hassigned := h.assigned
  have hrequest := h.request
  unfold serve
  split_ifs
  · refine ⟨⟨?_, ?_, h.priority⟩, ?_⟩
    · dsimp only
      omega
    · dsimp only
      omega
    · dsimp only
      omega
  · exact ⟨⟨h.assigned, h.request, h.priority⟩, rfl⟩

/-- An entry is taken out only if it asks for nothing. -/
theorem idle_spec (iInterval : ℤ) (h : EntryOk pEntry) :
    match idle iInterval pEntry with
    | none => pEntry.iRequestSize - pEntry.iAssigned = 0
    | some pEntry' => EntryOk pEntry' ∧
      pEntry'.iRequestSize - pEntry'.iAssigned = pEntry.iRequestSize - pEntry.iAssigned := by
  have hassigned := h.assigned
  unfold idle
  by_cases hasks : pEntry.iRequestSize > 0
  · simp only [if_pos hasks]
    exact ⟨⟨h.assigned, h.request, h.priority⟩, trivial⟩
  · simp only [if_neg hasks]
    by_cases hwaits : pEntry.iIdle ≤ 5000 + 3000
    · simp only [if_pos hwaits]
      exact ⟨⟨h.assigned, h.request, h.priority⟩, trivial⟩
    · simp only [if_neg hwaits]
      omega

/-- The queue with an entry that has got some quota, or without it if it asks for nothing more. -/
theorem QueueOk.change (h : QueueOk s) {s' : CBandwidthManager} {pLimiter : ℕ}
    (hget : s.m_Queue.get pLimiter = some pEntry) (iQuota : ℤ) (out : Option SEntry)
    (hout : match out with
      | none => pEntry.iRequestSize - pEntry.iAssigned = iQuota
      | some pEntry' => EntryOk pEntry' ∧
        pEntry'.iRequestSize - pEntry'.iAssigned = pEntry.iRequestSize - pEntry.iAssigned - iQuota)
    (hqueue : s'.m_Queue = putBack s.m_Queue pLimiter out)
    (hqueued : s'.m_iQueuedBytes = int32 (s.m_iQueuedBytes - iQuota)) (hquota : 0 ≤ iQuota) :
    QueueOk s' ∧ ∀ k, k ≠ pLimiter → s'.m_Queue.get k = s.m_Queue.get k := by
  have hothers : ∀ k, k ≠ pLimiter → s'.m_Queue.get k = s.m_Queue.get k := by
    intro k hk
    rw [hqueue]
    cases out with
    | none => exact get_erase_of_ne _ hk
    | some pEntry' => exact get_insert_of_ne _ _ hk
  have hentries : ∀ k pEntry', s'.m_Queue.get k = some pEntry' → EntryOk pEntry' := by
    intro k pEntry' hk
    by_cases hsame : k = pLimiter
    · subst hsame
      rw [hqueue] at hk
      cases out with
      | none => simp [putBack] at hk
      | some pEntry'' =>
        simp only [putBack, get_insert_self, Option.some.injEq] at hk
        exact hk ▸ hout.1
    · rw [hothers k hsame] at hk
      exact h.entries k pEntry' hk
  have htotal : outstanding s' = outstanding s - iQuota := by
    unfold outstanding
    rw [hqueue]
    cases out with
    | none =>
      dsimp only at hout
      rw [putBack, total_erase, hget, Option.elim_some, hout]
    | some pEntry' =>
      dsimp only at hout
      rw [putBack, total_insert, hget, Option.elim_some, hout.2]
      ring
  have hnonneg := outstanding_nonneg hentries
  have hfits := h.fits
  refine ⟨⟨hentries, ?_, by omega⟩, hothers⟩
  rw [hqueued, h.queued, ← htotal]
  exact int32_eq (by omega) (by omega)

/-- The queue after the turn of an entry. -/
theorem QueueOk.processEntry (h : QueueOk s) (iInterval : ℤ) {I : ℕ × SEntry} (hget : s.m_Queue.get I.1 = some I.2) :
    QueueOk (BandwidthManager.processEntry iInterval s I) ∧ ∀ k, k ≠ I.1 →
      (BandwidthManager.processEntry iInterval s I).m_Queue.get k = s.m_Queue.get k := by
  have hentry := h.entries I.1 I.2 hget
  have hassigned := hentry.assigned
  obtain ⟨hnonneg, hle, -⟩ := quotaFor_spec s.limits hentry
  have hgot : EntryOk { I.2 with iAssigned := I.2.iAssigned + quotaFor s.limits I.2 } :=
    ⟨⟨by dsimp only; omega, by dsimp only; omega⟩, hentry.request, hentry.priority⟩
  obtain ⟨hserved, hasks⟩ := serve_spec hgot
  have hidle := idle_spec iInterval hserved
  refine h.change hget (quotaFor s.limits I.2)
    (idle iInterval (serve { I.2 with iAssigned := I.2.iAssigned + quotaFor s.limits I.2 }).1) ?_ rfl rfl
    hnonneg
  dsimp only at hasks
  cases hout : idle iInterval (serve { I.2 with iAssigned := I.2.iAssigned + quotaFor s.limits I.2 }).1 with
  | none =>
    rw [hout] at hidle
    dsimp only at hidle ⊢
    omega
  | some pEntry =>
    rw [hout] at hidle
    exact ⟨hidle.1, by rw [hidle.2, hasks]; ring⟩

/-- The queue after the turns of some entries. -/
theorem QueueOk.processEntries (h : QueueOk s) {entries : List (ℕ × SEntry)}
    (hkeys : (entries.map Prod.fst).Nodup) (hget : ∀ I ∈ entries, s.m_Queue.get I.1 = some I.2) :
    QueueOk (entries.foldl (BandwidthManager.processEntry iInterval) s) := by
  induction entries generalizing s with
  | nil => exact h
  | cons I entries ih =>
    rw [List.map_cons, List.nodup_cons] at hkeys
    obtain ⟨hnext, hothers⟩ := h.processEntry iInterval (hget I List.mem_cons_self)
    refine ih hnext hkeys.2 fun I' hI' => ?_
    have hne : I'.1 ≠ I.1 := fun heq => hkeys.1 (heq ▸ List.mem_map.mpr ⟨I', hI', rfl⟩)
    rw [hothers I'.1 hne]
    exact hget I' (List.mem_cons_of_mem _ hI')

/-- A round is as it should be, and leaves a state that is. -/
theorem StateOk.round (h : StateOk s) (hmeets : Meets s (.Process iInterval)) :
    RoundRight iInterval s ∧ StateOk (Process iInterval s) := by
  have hprepared := h.prepared hmeets
  have hentries : ∀ I ∈ s.m_Queue.entries, EntryOk I.2 := fun I hI => h.entries _ _ (get_eq_some.mpr hI)
  have hlimits : ∀ L, (Process iInterval s).limits L =
      if (BandwidthManager.prepared (clamp iInterval) s L).m_iLimit = 0 then
        BandwidthManager.prepared (clamp iInterval) s L
      else { BandwidthManager.prepared (clamp iInterval) s L with
        m_iQuotaLeft := (BandwidthManager.prepared (clamp iInterval) s L).m_iQuotaLeft -
          usedOf (BandwidthManager.prepared (clamp iInterval) s) s.m_Queue.entries L
        granted := (BandwidthManager.prepared (clamp iInterval) s L).granted +
          usedOf (BandwidthManager.prepared (clamp iInterval) s) s.m_Queue.entries L } :=
    foldl_processEntry_limits s.m_Queue.entries _
  have hbound : ∀ pEntry L, Uses s pEntry L →
      usedOf (BandwidthManager.prepared (clamp iInterval) s) s.m_Queue.entries L ≤
        distributable (s.limits L) (clamp iInterval) := by
    intro pEntry L huses
    obtain ⟨hdistribute, -, htmp, hpos⟩ := h.prepared_shares hmeets huses
    have heach : ∀ I ∈ s.m_Queue.entries, L ∈ I.2.Limits →
        quotaFor (BandwidthManager.prepared (clamp iInterval) s) I.2 * (prioritiesOf s.m_Queue.entries L).sum ≤
          distributable (s.limits L) (clamp iInterval) * I.2.iPriority := by
      intro I hI hL
      have hused : Uses s I.2 L := ⟨⟨I.1, get_eq_some.mpr hI⟩, hL, huses.2.2⟩
      obtain ⟨-, hproduct, hsum⟩ := hmeets.2 I.2 L hused
      have hshare := (quotaFor_spec (BandwidthManager.prepared (clamp iInterval) s)
        (hentries I hI)).2.2 L hL (by rw [(hprepared L).2.1]; exact huses.2.2)
      rw [← hdistribute] at hproduct ⊢
      rw [← htmp] at hpos hsum ⊢
      have hmul := share_mul_le (hprepared L).1.distribute (hentries I hI).priority hproduct hpos hsum
      exact (mul_le_mul_of_nonneg_right hshare hpos.le).trans hmul
    exact le_of_mul_le_mul_right (usedOf_mul_le heach) hpos
  have hgranted : ∀ L, (s.limits L).m_iLimit ≠ 0 → ((Process iInterval s).limits L).granted = (s.limits L).granted +
        usedOf (BandwidthManager.prepared (clamp iInterval) s) s.m_Queue.entries L := by
    intro L hlimit
    obtain ⟨-, hsame, hbefore⟩ := hprepared L
    rw [hlimits, if_neg (by rwa [hsame]), hbefore]
  have hunused : ∀ L, (∀ pEntry, ¬ Uses s pEntry L) → (s.limits L).m_iLimit ≠ 0 →
      usedOf (BandwidthManager.prepared (clamp iInterval) s) s.m_Queue.entries L = 0 := by
    intro L hnone hlimit
    refine List.sum_eq_zero fun x hx => ?_
    obtain ⟨I, hI, rfl⟩ := List.mem_map.mp hx
    have hL : L ∉ I.2.Limits := fun hL => hnone I.2 ⟨⟨I.1, get_eq_some.mpr hI⟩, hL, hlimit⟩
    simp [List.count_eq_zero_of_not_mem hL]
  refine ⟨⟨fun pEntry L huses => ?_, fun pEntry L huses => ?_, fun L hlimit => ?_⟩, ?_⟩
  · have hlimit := (h.limits L).limit
    have hmax : INT_MAX = 2 ^ 31 - 1 := rfl
    exact ⟨(hmeets.2 pEntry L huses).1, by omega⟩
  · obtain ⟨hdistribute, -, htmp, hpos⟩ := h.prepared_shares hmeets huses
    rw [hdistribute, htmp]
    exact ⟨(hmeets.2 pEntry L huses).2.1, hpos⟩
  · rw [hgranted L hlimit]
    by_cases huses : ∃ pEntry, Uses s pEntry L
    · obtain ⟨pEntry, huses⟩ := huses
      have hle := hbound pEntry L huses
      rw [(h.prepared_shares hmeets huses).1]
      omega
    · rw [hunused L (not_exists.mp huses) hlimit]
      have hnonneg := (hprepared L).1.distribute
      omega
  · have hqueue : QueueOk { s with limits := BandwidthManager.prepared (clamp iInterval) s } :=
      ⟨h.entries, h.queued, h.fits⟩
    have hprocessed : QueueOk (Process iInterval s) :=
      hqueue.processEntries s.m_Queue.nodup_keys fun I hI => get_eq_some.mpr hI
    refine ⟨hprocessed, fun L => ?_⟩
    obtain ⟨hok, hsame, -⟩ := hprepared L
    rw [hlimits]
    by_cases hlimit : (s.limits L).m_iLimit = 0
    · rwa [if_pos (by rwa [hsame])]
    · rw [if_neg (by rwa [hsame])]
      have hbalance := hok.balance
      refine ⟨hok.limit, hok.priority, ?_, hok.distribute, ?_⟩
      · dsimp only
        by_cases huses : ∃ pEntry, Uses s pEntry L
        · obtain ⟨pEntry, huses⟩ := huses
          have hle := hbound pEntry L huses
          rw [(h.prepared_shares hmeets huses).2.1]
          omega
        · rw [hunused L (not_exists.mp huses) hlimit, sub_zero]
          exact hok.quota
      · dsimp only
        omega

end Serving

section Steps

variable {s : CBandwidthManager}

theorem entryOk_new : EntryOk SEntry.new := ⟨by simp [SEntry.new], by simp [SEntry.new, INT_MAX], by simp [SEntry.new]⟩

variable {pEntry : SEntry}

/-- The priority of an entry is positive. -/
theorem EntryOk.updateEntry (h : EntryOk pEntry) {limits : ℕ → CBandwidthLimit}
    (hlimits : ∀ L, LimitOk (limits L)) (Limits : List ℕ) : EntryOk (UpdateEntry limits Limits pEntry).1 := by
  refine ⟨h.assigned, h.request, ?_⟩
  have hpos : ∀ p ∈ priorities limits Limits, 1 ≤ p := by
    intro p hp
    simp only [priorities, List.mem_filter, List.mem_map, decide_eq_true_eq] at hp
    obtain ⟨⟨L, -, rfl⟩, hne⟩ := hp
    have hpriority := (hlimits L).priority
    omega
  have hsum : ((priorities limits Limits).length : ℤ) ≤ (priorities limits Limits).sum := by
    have hcard := List.card_nsmul_le_sum _ 1 hpos
    simpa using hcard
  unfold UpdateEntry
  dsimp only
  split_ifs with hcount
  · rw [Int.tdiv_eq_ediv_of_nonneg (by omega)]
    exact (Int.le_ediv_of_mul_le (by omega) (by omega)).trans_lt' Int.one_pos
  · simp [BW_PRIO_NORMAL]

theorem EntryOk.raiseRequest (h : EntryOk pEntry) {iAmount : ℤ} (hfits : iAmount ≤ INT_MAX) :
    EntryOk (BandwidthManager.raiseRequest iAmount pEntry) ∧
      pEntry.iRequestSize ≤ (BandwidthManager.raiseRequest iAmount pEntry).iRequestSize ∧
      (BandwidthManager.raiseRequest iAmount pEntry).iAssigned = pEntry.iAssigned := by
  have hassigned := h.assigned
  unfold BandwidthManager.raiseRequest
  split_ifs with hless
  · exact ⟨⟨⟨h.assigned.1, by dsimp only; omega⟩, hfits, h.priority⟩, hless.le, rfl⟩
  · exact ⟨h, le_rfl, rfl⟩

variable {s' : CBandwidthManager} {pLimiter : ℕ}

theorem entries_put
    (h : ∀ pLimiter pEntry, s.m_Queue.get pLimiter = some pEntry → EntryOk pEntry) (hentry : EntryOk pEntry)
    (hqueue : s'.m_Queue = s.m_Queue.insert pLimiter pEntry) :
    ∀ k pEntry', s'.m_Queue.get k = some pEntry' → EntryOk pEntry' := by
  intro k pEntry' hk
  rw [hqueue] at hk
  by_cases hsame : k = pLimiter
  · subst hsame
    rw [get_insert_self, Option.some.injEq] at hk
    exact hk ▸ hentry
  · rw [get_insert_of_ne _ _ hsame] at hk
    exact h k pEntry' hk

/-- The bytes outstanding with another entry put in, which asks for so many more. -/
theorem outstanding_put {pEntry found : SEntry} {n : ℤ} (hfound : (s.m_Queue.get pLimiter).getD SEntry.new = found)
    (hqueue : s'.m_Queue = s.m_Queue.insert pLimiter pEntry)
    (hasks : pEntry.iRequestSize - pEntry.iAssigned = found.iRequestSize - found.iAssigned + n) :
    outstanding s' = outstanding s + n := by
  unfold outstanding
  rw [hqueue, total_insert, hasks, ← hfound]
  cases s.m_Queue.get pLimiter with
  | none => simp [SEntry.new]
  | some found =>
    simp only [Option.elim_some, Option.getD_some]
    ring

/-- The queue with another entry put in, which asks for so many more. -/
theorem QueueOk.put (h : QueueOk s) {pEntry found : SEntry} {n : ℤ}
    (hfound : (s.m_Queue.get pLimiter).getD SEntry.new = found) (hentry : EntryOk pEntry)
    (hqueue : s'.m_Queue = s.m_Queue.insert pLimiter pEntry)
    (hasks : pEntry.iRequestSize - pEntry.iAssigned = found.iRequestSize - found.iAssigned + n)
    (hqueued : s'.m_iQueuedBytes = int32 (outstanding s + n)) (hfits : outstanding s + n ≤ INT_MAX) : QueueOk s' := by
  have hentries := entries_put h.entries hentry hqueue
  have htotal := outstanding_put hfound hqueue hasks
  have hnonneg := outstanding_nonneg hentries
  rw [← htotal] at hfits hqueued
  exact ⟨hentries, hqueued.trans (int32_eq (by omega) hfits), hfits⟩

/-- A request leaves a state that is as it should be. -/
theorem StateOk.requestBandwidth (h : StateOk s) {Limits : List ℕ} {iAmount : ℤ}
    (hmeets : Meets s (.RequestBandwidth Limits pLimiter iAmount)) :
    StateOk (RequestBandwidth Limits pLimiter iAmount s) := by
  obtain ⟨-, hamount, hsum, hdirect⟩ := hmeets
  obtain ⟨found, hfound⟩ : ∃ found, (s.m_Queue.get pLimiter).getD SEntry.new = found := ⟨_, rfl⟩
  obtain ⟨raised, hraised⟩ : ∃ raised, raiseRequest iAmount found = raised := ⟨_, rfl⟩
  have hfoundOk : EntryOk found := by
    cases hget : s.m_Queue.get pLimiter with
    | none => exact hfound ▸ hget ▸ entryOk_new
    | some pEntry =>
      rw [hget] at hfound
      exact hfound ▸ h.entries _ _ hget
  obtain ⟨hraisedOk, hmore, hsame⟩ := hfoundOk.raiseRequest hamount
  rw [hfound, hraised] at hsum
  rw [hfound] at hdirect
  rw [hraised] at hraisedOk hmore hsame
  have hupdated := hraisedOk.updateEntry h.limits Limits
  unfold RequestBandwidth
  rw [hfound]
  dsimp only
  rw [hraised, h.queued]
  split_ifs with hlimited
  · refine ⟨h.put (n := raised.iRequestSize - found.iRequestSize) hfound hupdated rfl ?_ rfl hsum, h.limits⟩
    simp only [UpdateEntry, hsame]
    ring
  · have hzero := hdirect (by simpa [UpdateEntry] using hlimited)
    have hadded : int32 (outstanding s + (raised.iRequestSize - found.iRequestSize)) =
        outstanding s + (raised.iRequestSize - found.iRequestSize) := by
      have hnonneg := outstanding_nonneg h.entries
      exact int32_eq (by omega) hsum
    have hfits := h.fits
    have hrequest := hfoundOk.assigned
    have hput : EntryOk { (UpdateEntry s.limits Limits raised).1 with iRequestSize := 0 } := by
      refine ⟨⟨hupdated.assigned.1, ?_⟩, ?_, hupdated.priority⟩
      · simp only [UpdateEntry, hsame, hzero, le_refl]
      · simp [INT_MAX]
    refine ⟨h.put (n := -found.iRequestSize) hfound hput rfl ?_ ?_ (by omega), h.limits⟩
    · simp only [UpdateEntry, hsame, hzero]
      ring
    · rw [hadded]
      simp only [UpdateEntry]
      congr 1
      ring

/-- Other limits of a limiter leave a state that is as it should be. -/
theorem StateOk.updateLimits (h : StateOk s) (Limits : List ℕ) (pLimiter : ℕ) :
    StateOk (UpdateLimits Limits pLimiter s) := by
  have htotal : outstanding (UpdateLimits Limits pLimiter s) = outstanding s := by
    unfold outstanding UpdateLimits
    rw [total_modify]
    cases s.m_Queue.get pLimiter with
    | none => simp
    | some pEntry => simp [UpdateEntry]
  refine ⟨⟨fun k pEntry hk => ?_, htotal ▸ h.queued, htotal ▸ h.fits⟩, h.limits⟩
  unfold UpdateLimits at hk
  by_cases hsame : k = pLimiter
  · subst hsame
    rw [get_modify_self, Option.map_eq_some_iff] at hk
    obtain ⟨found, hget, rfl⟩ := hk
    exact (h.entries k found hget).updateEntry h.limits Limits
  · rw [get_modify_of_ne _ _ hsame] at hk
    exact h.entries k pEntry hk

theorem LimitOk.returnQuota {pLimit : CBandwidthLimit} (h : LimitOk pLimit) {iAmount : ℤ}
    (hamount : 0 ≤ iAmount) : LimitOk (pLimit.ReturnQuota iAmount) := by
  have hquota := h.quota
  have hbalance := h.balance
  unfold CBandwidthLimit.ReturnQuota
  split_ifs
  · exact h
  · refine ⟨h.limit, h.priority, ?_, h.distribute, ?_⟩
    · dsimp only
      omega
    · dsimp only
      omega

/-- A limiter that goes leaves a state that is as it should be. -/
theorem StateOk.returnBandwidth (h : StateOk s) (pLimiter : ℕ) : StateOk (ReturnBandwidth pLimiter s) := by
  unfold ReturnBandwidth
  cases hget : s.m_Queue.get pLimiter with
  | none => exact h
  | some pEntry =>
    have hassigned := (h.entries _ _ hget).assigned
    refine ⟨(h.change hget _ none rfl rfl rfl (by omega)).1, fun L => ?_⟩
    dsimp only [forLimits]
    rw [foldl_modifyCell_iterate]
    have hagain : ∀ n, LimitOk ((CBandwidthLimit.ReturnQuota pEntry.iAssigned)^[n] (s.limits L)) := by
      intro n
      induction n with
      | zero => exact h.limits L
      | succ n ih =>
        rw [Function.iterate_succ_apply']
        exact ih.returnQuota hassigned.1
    exact hagain _

theorem StateOk.modifyLimit (h : StateOk s) (pLimit : ℕ) {f : CBandwidthLimit → CBandwidthLimit}
    (hf : ∀ v, LimitOk v → LimitOk (f v)) : StateOk { s with limits := modifyCell s.limits pLimit f } := by
  refine ⟨⟨h.entries, h.queued, h.fits⟩, fun L => ?_⟩
  dsimp only
  by_cases hL : L = pLimit
  · subst hL
    rw [modifyCell_self]
    exact hf _ (h.limits L)
  · rw [modifyCell_of_ne _ _ hL]
    exact h.limits L

/-- A step that goes well is right, and leaves a state that is as it should be. -/
theorem StateOk.step (h : StateOk s) (op : Op) (hmeets : Meets s op) :
    StepRight s op ∧ StateOk (BandwidthManager.step s op) := by
  cases op with
  | RequestBandwidth Limits pLimiter iAmount => exact ⟨trivial, h.requestBandwidth hmeets⟩
  | UpdateLimits Limits pLimiter => exact ⟨trivial, h.updateLimits Limits pLimiter⟩
  | ReturnBandwidth pLimiter => exact ⟨trivial, h.returnBandwidth pLimiter⟩
  | Process iInterval => exact h.round hmeets
  | SetLimit pLimit iLimit =>
    refine ⟨trivial, h.modifyLimit pLimit fun v hv => ⟨?_, hv.priority, hv.quota, hv.distribute, hv.balance⟩⟩
    unfold CBandwidthLimit.SetLimit
    dsimp only
    split_ifs with hnone
    · simp [INT_MAX]
    · exact hmeets.resolve_left hnone
  | SetPriority pLimit iPriority =>
    refine ⟨trivial, h.modifyLimit pLimit fun v hv => ⟨hv.limit, ?_, hv.quota, hv.distribute, hv.balance⟩⟩
    unfold CBandwidthLimit.SetPriority
    dsimp only
    split_ifs <;> omega

theorem stateOk_new : StateOk CBandwidthManager.new where
  entries _ _ h := by simp [CBandwidthManager.new] at h
  queued := rfl
  fits := by simp [outstanding, CBandwidthManager.new, INT_MAX]
  limits _ := ⟨by simp [CBandwidthManager.new, CBandwidthLimit.new, INT_MAX], le_rfl, le_rfl, le_rfl, le_rfl⟩

theorem StateOk.run (h : StateOk s) (ops : List Op) (hmeets : AllMeet s ops) : RunRight s ops := by
  induction ops generalizing s with
  | nil => exact h.right
  | cons op ops ih =>
    obtain ⟨hright, hnext⟩ := h.step op hmeets.1
    exact ⟨h.right, hright, ih hnext hmeets.2⟩

/-- Every run whose steps all go well is right. -/
theorem run_right (ops : List Op) (h : AllMeet CBandwidthManager.new ops) :
    RunRight CBandwidthManager.new ops :=
  stateOk_new.run ops h

/-- A request that waits for one round. -/
theorem run_right_example :
    RunRight CBandwidthManager.new [.SetLimit 0 1000, .RequestBandwidth [0] 1 100, .Process 100] := by
  refine run_right _ ⟨by simp [Meets, INT_MAX], ?_, ⟨by simp, fun pEntry L hL => ?_⟩, trivial⟩
  · simp only [Meets]
    decide
  · obtain ⟨⟨pLimiter, hget⟩, hmem, -⟩ := hL
    have hqueue : (step (step CBandwidthManager.new (.SetLimit 0 1000))
        (.RequestBandwidth [0] 1 100)).m_Queue.entries = [(1, ⟨100, 0, 100, 20, 0, [0]⟩)] := by decide
    rw [get_eq_some, hqueue, List.mem_singleton, Prod.mk.injEq] at hget
    obtain rfl := hget.2
    obtain rfl := List.mem_singleton.mp hmem
    decide

/-- The product of a limit that was admitted and an interval of three seconds overflows. -/
theorem product_overflows : ¬ RunRight CBandwidthManager.new
      [.SetLimit 0 1000000, .RequestBandwidth [0] 1 10000, .Process 3000] := by
  intro hright
  obtain ⟨-, -, -, -, -, hround, -⟩ := hright
  have hproduct := (hround.products ⟨100, 0, 10000, 20, 0, [0]⟩ 0 ⟨⟨1, by decide⟩, by decide, by decide⟩).1
  revert hproduct
  decide

end Steps

end NeoLoader.BandwidthRuns
