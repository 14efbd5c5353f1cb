import Mathlib.Data.List.Infix
import Mathlib.Tactic.IntervalCases
import NeoLoader.PartStates
import NeoLoader.RangeMapUpdate

/-!
# Flags, counters and priorities of a part

Three flags of a part follow counters of transfers. Whatever is set, added, cleared or merged, such
a flag is set exactly while its counter is not zero, and the counter tells by how many the adds are
ahead of the clears. The other flags are not counted, so a clear takes away what was there before
the add. Flags come with a priority of zero, and to clear that from a negative priority gives zero.
-/

namespace NeoLoader.PartCounters

open RangeMap PartStates

/-- The counters of a part. -/
inductive ECounter where
  /-- `uScheduled`. -/
  | scheduled
  /-- `uRequested`. -/
  | requested
  /-- `uMarked`. -/
  | marked
  deriving DecidableEq

/-- The flag that follows a counter. -/
def ECounter.flag : ECounter → ℕ
  | scheduled => Part.Scheduled
  | requested => Part.Requested
  | marked => Part.Marked

/-- The value of a counter. -/
def ECounter.count : ECounter → SPartRange → BitVec 16
  | scheduled, s => s.uScheduled
  | requested, s => s.uRequested
  | marked, s => s.uMarked

/-- `SPartRange::Priority`. -/
def priority (iPriority : ℤ) : SPartRange :=
  { SPartRange.ofStates 0 with bStates := false, bPriority := true, iPriority := iPriority }

/-- Values made from flags and priorities by `MakeState` and `MergeState`. -/
inductive Built : SPartRange → Prop
  /-- Flags. -/
  | states (s : BitVec 32) : Built (SPartRange.ofStates s)
  /-- A priority. -/
  | priority (iPriority : ℤ) : Built (priority iPriority)
  /-- An update. -/
  | make {u v : SPartRange} (hu : Built u) (hv : Built v) (eMode : ESet) : Built (SPartRange.makeState u v eMode)
  /-- A merge. -/
  | merge {u v : SPartRange} (hu : Built u) (hv : Built v) (eMode : EMerge) : Built (SPartRange.mergeState u v eMode)

/-- Each counted flag is set exactly while its counter is not zero. -/
def Consistent (s : SPartRange) : Prop := ∀ c : ECounter, s.and c.flag ≠ 0 ↔ c.count s ≠ 0

section Flags

theorem or_and_self (u f : BitVec 32) : (u ||| f) &&& f = f := by
  refine BitVec.eq_of_getLsbD_eq fun i _ => ?_
  rw [BitVec.getLsbD_and, BitVec.getLsbD_or]
  cases u.getLsbD i <;> cases f.getLsbD i <;> rfl

theorem and_not_and_self (u f : BitVec 32) : u &&& ~~~f &&& f = 0#32 := by
  refine BitVec.eq_of_getLsbD_eq fun i hi => ?_
  rw [BitVec.getLsbD_and, BitVec.getLsbD_and, BitVec.getLsbD_not, decide_eq_true hi, BitVec.getLsbD_zero]
  cases u.getLsbD i <;> cases f.getLsbD i <;> rfl

variable (u : BitVec 32)

theorem or_and_of_disjoint {f g : BitVec 32} (h : f &&& g = 0#32) : (u ||| f) &&& g = u &&& g := by
  refine BitVec.eq_of_getLsbD_eq fun i _ => ?_
  have hbit := congrArg (fun x => x.getLsbD i) h
  rw [BitVec.getLsbD_and, BitVec.getLsbD_zero] at hbit
  rw [BitVec.getLsbD_and, BitVec.getLsbD_or, BitVec.getLsbD_and]
  cases hf : f.getLsbD i <;> cases hg : g.getLsbD i <;> simp_all

theorem and_not_and_of_disjoint {f g : BitVec 32} (h : f &&& g = 0#32) : u &&& ~~~f &&& g = u &&& g := by
  refine BitVec.eq_of_getLsbD_eq fun i hi => ?_
  have hbit := congrArg (fun x => x.getLsbD i) h
  rw [BitVec.getLsbD_and, BitVec.getLsbD_zero] at hbit
  rw [BitVec.getLsbD_and, BitVec.getLsbD_and, BitVec.getLsbD_and, BitVec.getLsbD_not, decide_eq_true hi]
  cases hf : f.getLsbD i <;> cases hg : g.getLsbD i <;> simp_all

theorem statFlag_and_self (count : BitVec 16) {flag : ℕ} (hflag : BitVec.ofNat 32 flag ≠ 0) :
    SPartRange.statFlag u count flag &&& BitVec.ofNat 32 flag ≠ 0 ↔ count ≠ 0 := by
  rw [SPartRange.statFlag]
  split_ifs with h
  · rw [or_and_self]
    exact iff_of_true hflag h
  · rw [and_not_and_self]
    exact iff_of_false (fun hne => hne rfl) h

theorem statFlag_and_of_disjoint (count : BitVec 16) {flag other : ℕ}
    (h : BitVec.ofNat 32 flag &&& BitVec.ofNat 32 other = 0) :
    SPartRange.statFlag u count flag &&& BitVec.ofNat 32 other = u &&& BitVec.ofNat 32 other := by
  rw [SPartRange.statFlag]
  split_ifs
  · exact or_and_of_disjoint u h
  · exact and_not_and_of_disjoint u h

/-- After `STAT_UPD` each counted flag follows its counter. -/
theorem consistent_statUpd (s : SPartRange) : Consistent (SPartRange.statUpd s) := by
  intro c
  rw [SPartRange.and, SPartRange.statUpd]
  cases c with
  | scheduled =>
    rw [ECounter.flag, statFlag_and_of_disjoint _ _ (by decide), statFlag_and_of_disjoint _ _ (by decide)]
    exact statFlag_and_self _ _ (by decide)
  | requested =>
    rw [ECounter.flag, statFlag_and_of_disjoint _ _ (by decide)]
    exact statFlag_and_self _ _ (by decide)
  | marked => exact statFlag_and_self _ _ (by decide)

theorem consistent_ofStates (s : BitVec 32) : Consistent (SPartRange.ofStates s) := by
  intro c
  cases c <;>
  · rw [SPartRange.and, ECounter.flag, ECounter.count, SPartRange.ofStates]
    dsimp only
    split_ifs with h
    · exact iff_of_true h (by decide)
    · exact iff_of_false h (fun hne => hne rfl)

theorem Consistent.congr {s t : SPartRange} (h : Consistent s) (hstates : t.uStates = s.uStates)
    (hcount : ∀ c : ECounter, c.count t = c.count s) : Consistent t := by
  intro c
  rw [SPartRange.and, hstates, hcount]
  exact h c

theorem Consistent.priority {s : SPartRange} (h : Consistent s) (iPriority : ℤ) :
    Consistent { s with iPriority := iPriority } :=
  h.congr rfl fun c => by cases c <;> rfl

/-- An update keeps a value consistent. -/
theorem consistent_makeState {u v : SPartRange} (hu : Consistent u) (hv : Consistent v)
    (eMode : ESet) : Consistent (SPartRange.makeState u v eMode) := by
  cases eMode with
  | eSet =>
    have hset : Consistent (if v.bStates = true then { u with
        uStates := v.uStates
        uScheduled := v.uScheduled
        uRequested := v.uRequested
        uMarked := v.uMarked } else u) := by
      by_cases hs : v.bStates = true
      · rw [if_pos hs]
        exact hv.congr rfl fun c => by cases c <;> rfl
      · rwa [if_neg hs]
    rw [SPartRange.makeState]
    by_cases hp : v.bPriority = true
    · rw [if_pos hp]
      exact hset.priority _
    · rwa [if_neg hp]
  | eAdd =>
    rw [SPartRange.makeState]
    by_cases hs : v.bStates = true
    · rw [if_pos hs]
      by_cases hp : v.bPriority = true
      · rw [if_pos hp]
        exact (consistent_statUpd _).priority _
      · rw [if_neg hp]
        exact consistent_statUpd _
    · rw [if_neg hs]
      by_cases hp : v.bPriority = true
      · rw [if_pos hp]
        exact hu.priority _
      · rwa [if_neg hp]
  | eClr =>
    rw [SPartRange.makeState]
    by_cases hs : v.bStates = true
    · rw [if_pos hs]
      by_cases hp : v.bPriority = true
      · rw [if_pos hp]
        exact (consistent_statUpd _).priority _
      · rw [if_neg hp]
        exact consistent_statUpd _
    · rw [if_neg hs]
      by_cases hp : v.bPriority = true
      · rw [if_pos hp]
        exact hu.priority _
      · rwa [if_neg hp]

theorem consistent_mergeState (u v : SPartRange) (eMode : EMerge) : Consistent (SPartRange.mergeState u v eMode) := by
  cases eMode with
  | eUnion => exact (consistent_statUpd _).congr rfl fun c => by cases c <;> rfl
  | eInter => exact (consistent_statUpd _).congr rfl fun c => by cases c <;> rfl

theorem Built.consistent {s : SPartRange} (h : Built s) : Consistent s := by
  induction h with
  | states s => exact consistent_ofStates s
  | priority iPriority => exact (consistent_ofStates 0).congr rfl fun c => by cases c <;> rfl
  | make _ _ eMode ihu ihv => exact consistent_makeState ihu ihv eMode
  | merge _ _ eMode _ _ => exact consistent_mergeState _ _ eMode

end Flags

section Counts

/-- What is ahead after one update: a set begins anew. -/
def tallyStep (c : ECounter) (n : ℤ) (u : SPartRange × ESet) : ℤ :=
  if u.1.bStates = true then
    match u.2 with
    | ESet.eSet => (c.count u.1).toNat
    | ESet.eAdd => n + (c.count u.1).toNat
    | ESet.eClr => n - (c.count u.1).toNat
  else n

/-- By how many the adds are ahead of the clears. -/
def tally (c : ECounter) (updates : List (SPartRange × ESet)) : ℤ :=
  updates.foldl (tallyStep c) 0

/-- A counter of 16 bits admits every number on the way. -/
def Admitted (c : ECounter) (updates : List (SPartRange × ESet)) : Prop :=
  ∀ before, before <+: updates → 0 ≤ tally c before ∧ tally c before < 2 ^ 16

/-- Whether a counter admits the numbers can be computed. -/
instance (c : ECounter) (updates : List (SPartRange × ESet)) : Decidable (Admitted c updates) :=
  decidable_of_iff (∀ before ∈ updates.inits, 0 ≤ tally c before ∧ tally c before < 2 ^ 16)
    (forall_congr' fun _ => imp_congr_left (List.mem_inits _ _))

/-- Updates of one byte. -/
def runUpdates (s : SPartRange) (updates : List (SPartRange × ESet)) : SPartRange :=
  updates.foldl (fun s u => SPartRange.makeState s u.1 u.2) s

theorem count_makeState (c : ECounter) (s v : SPartRange) (eMode : ESet) :
    c.count (SPartRange.makeState s v eMode) = if v.bStates = true then
      match eMode with
      | ESet.eSet => c.count v
      | ESet.eAdd => c.count s + c.count v
      | ESet.eClr => numClr (c.count s) (c.count v)
    else c.count s := by
  obtain ⟨bStates, bPriority, _, _, _, _, _⟩ := v
  cases bStates <;> cases bPriority <;> cases eMode <;> cases c <;> rfl

/-- An update counts as long as the counter admits the number. -/
theorem tallyStep_eq {c : ECounter} {s : SPartRange} {n : ℤ} (h : ((c.count s).toNat : ℤ) = n)
    {u : SPartRange × ESet} (hlow : 0 ≤ tallyStep c n u) (hhigh : tallyStep c n u < 2 ^ 16) :
    ((c.count (SPartRange.makeState s u.1 u.2)).toNat : ℤ) = tallyStep c n u := by
  obtain ⟨v, eMode⟩ := u
  rw [count_makeState]
  rw [tallyStep] at hlow hhigh ⊢
  by_cases hs : v.bStates = true
  · rw [if_pos hs] at hlow hhigh ⊢
    rw [if_pos hs]
    cases eMode with
    | eSet => rfl
    | eAdd =>
      dsimp only at hlow hhigh ⊢
      rw [BitVec.toNat_add, Nat.mod_eq_of_lt (by omega)]
      omega
    | eClr =>
      dsimp only at hlow hhigh ⊢
      rw [toNat_numClr]
      omega
  · rw [if_neg hs, if_neg hs]
    exact h

/-- A counter tells by how many the adds are ahead of the clears. -/
theorem count_runUpdates {c : ECounter} {updates : List (SPartRange × ESet)} (h : Admitted c updates) :
    ((c.count (runUpdates (SPartRange.ofStates 0) updates)).toNat : ℤ) = tally c updates := by
  induction updates using List.reverseRecOn with
  | nil => cases c <;> rfl
  | append_singleton updates u ih =>
    have hbefore := ih fun before hb => h before (hb.trans (List.prefix_append _ _))
    have hnow := h (updates ++ [u]) (List.prefix_refl _)
    rw [tally, List.foldl_append] at hnow ⊢
    rw [runUpdates, List.foldl_append]
    exact tallyStep_eq hbefore hnow.1 hnow.2

end Counts

section Restoring

/-- The flags that no counter stands behind. -/
def plainFlags : BitVec 32 :=
  ~~~(BitVec.ofNat 32 Part.Scheduled ||| BitVec.ofNat 32 Part.Requested ||| BitVec.ofNat 32 Part.Marked)

theorem numClr_add {a b : BitVec 16} (h : a.toNat + b.toNat < 2 ^ 16) : numClr (a + b) b = a := by
  refine BitVec.eq_of_toNat_eq ?_
  rw [toNat_numClr, BitVec.toNat_add, Nat.mod_eq_of_lt h]
  omega

/-- `STAT_UPD` leaves the flags alone that no counter stands behind. -/
theorem statUpd_and_plainFlags (s : SPartRange) :
    (SPartRange.statUpd s).uStates &&& plainFlags = s.uStates &&& plainFlags := by
  have hother : ∀ (u : BitVec 32) (count : BitVec 16) (flag : ℕ), BitVec.ofNat 32 flag &&& plainFlags = 0#32 →
      SPartRange.statFlag u count flag &&& plainFlags = u &&& plainFlags := by
    intro u count flag h
    rw [SPartRange.statFlag]
    split_ifs
    · exact or_and_of_disjoint u h
    · exact and_not_and_of_disjoint u h
  rw [SPartRange.statUpd, hother _ _ _ (by decide), hother _ _ _ (by decide), hother _ _ _ (by decide)]

/-- The flags of a consistent value are its plain ones and those that its counters tell. -/
theorem eq_of_consistent {s t : SPartRange} (hs : Consistent s) (ht : Consistent t)
    (hplain : s.uStates &&& plainFlags = t.uStates &&& plainFlags)
    (hcount : ∀ c : ECounter, c.count s = c.count t) : s.uStates = t.uStates := by
  have hflag : ∀ (j : ℕ), j < 32 → (∃ c : ECounter, c.flag = 2 ^ j) → s.uStates.getLsbD j = t.uStates.getLsbD j := by
    rintro j hj ⟨c, hc⟩
    have hpow : BitVec.ofNat 32 (2 ^ j) = BitVec.twoPow 32 j := by
      refine BitVec.eq_of_toNat_eq ?_
      rw [BitVec.toNat_twoPow, BitVec.toNat_ofNat]
    have hbit : ∀ u : BitVec 32, u &&& BitVec.ofNat 32 (2 ^ j) ≠ 0 ↔ u.getLsbD j = true := by
      intro u
      rw [hpow, BitVec.and_twoPow]
      split_ifs with hu
      · refine iff_of_true (fun hzero => ?_) hu
        have hat := congrArg (fun x => x.getLsbD j) hzero
        simp [hj] at hat
      · exact iff_of_false (fun hne => hne rfl) hu
    have hsame := (hs c).trans ((by rw [hcount] : c.count s ≠ 0 ↔ c.count t ≠ 0).trans (ht c).symm)
    rw [SPartRange.and, SPartRange.and, hc, hbit, hbit] at hsame
    exact Bool.eq_iff_iff.mpr hsame
  refine BitVec.eq_of_getLsbD_eq fun j hj => ?_
  by_cases hcounted : ∃ c : ECounter, c.flag = 2 ^ j
  · exact hflag j hj hcounted
  · have hin : plainFlags.getLsbD j = true := by
      have hnot : ∀ j < 32, (¬∃ c ∈ [ECounter.scheduled, .requested, .marked], c.flag = 2 ^ j) →
          plainFlags.getLsbD j = true := by decide
      exact hnot j hj fun ⟨c, _, hc⟩ => hcounted ⟨c, hc⟩
    have hat := congrArg (fun x => x.getLsbD j) hplain
    rw [BitVec.getLsbD_and, BitVec.getLsbD_and, hin, Bool.and_true, Bool.and_true] at hat
    exact hat

variable (s v : SPartRange)

/-- What an update does to the flags that no counter stands behind. -/
theorem plain_makeState (eMode : ESet) :
    (SPartRange.makeState s v eMode).uStates &&& plainFlags = (if v.bStates = true then
      match eMode with
      | ESet.eSet => v.uStates
      | ESet.eAdd => s.uStates ||| v.uStates
      | ESet.eClr => s.uStates &&& ~~~v.uStates
    else s.uStates) &&& plainFlags := by
  obtain ⟨bStates, bPriority, _, _, _, _, _⟩ := v
  cases eMode with
  | eSet => cases bStates <;> cases bPriority <;> rfl
  | eAdd =>
    cases bStates <;> cases bPriority
    · rfl
    · rfl
    · exact statUpd_and_plainFlags _
    · exact statUpd_and_plainFlags _
  | eClr =>
    cases bStates <;> cases bPriority
    · rfl
    · rfl
    · exact statUpd_and_plainFlags _
    · exact statUpd_and_plainFlags _

theorem iPriority_makeState (eMode : ESet) : (SPartRange.makeState s v eMode).iPriority = if v.bPriority = true then
      match eMode with
      | ESet.eSet => v.iPriority
      | ESet.eAdd => s.iPriority + v.iPriority
      | ESet.eClr => if s.iPriority > v.iPriority then s.iPriority - v.iPriority else 0
    else s.iPriority := by
  obtain ⟨bStates, bPriority, _, _, _, _, _⟩ := v
  cases bStates <;> cases bPriority <;> cases eMode <;> rfl

theorem selectors_makeState (eMode : ESet) : (SPartRange.makeState s v eMode).bStates = s.bStates ∧
      (SPartRange.makeState s v eMode).bPriority = s.bPriority := by
  obtain ⟨bStates, bPriority, _, _, _, _, _⟩ := v
  cases bStates <;> cases bPriority <;> cases eMode <;> exact ⟨rfl, rfl⟩

/-- A clear takes an add back where no plain flag was set before, the counters have room and the
priority was not negative. -/
theorem clear_add {u v : SPartRange} (hu : Consistent u) (hv : Consistent v)
    (hplain : v.bStates = true → u.uStates &&& v.uStates &&& plainFlags = 0#32)
    (hcount : v.bStates = true → ∀ c : ECounter, (c.count u).toNat + (c.count v).toNat < 2 ^ 16)
    (hpriority : v.bPriority = true → 0 ≤ u.iPriority) :
    SPartRange.makeState (SPartRange.makeState u v ESet.eAdd) v ESet.eClr = u := by
  generalize hw : SPartRange.makeState (SPartRange.makeState u v ESet.eAdd) v ESet.eClr = w
  have hconsistent : Consistent w := by
    rw [← hw]
    exact consistent_makeState (consistent_makeState hu hv _) hv _
  have hcounts : ∀ c : ECounter, c.count w = c.count u := by
    intro c
    rw [← hw, count_makeState, count_makeState]
    by_cases hs : v.bStates = true
    · rw [if_pos hs, if_pos hs]
      exact numClr_add (hcount hs c)
    · rw [if_neg hs, if_neg hs]
  have hflags : w.uStates &&& plainFlags = u.uStates &&& plainFlags := by
    rw [← hw, plain_makeState]
    by_cases hs : v.bStates = true
    · rw [if_pos hs]
      have hadd := plain_makeState u v ESet.eAdd
      rw [if_pos hs] at hadd
      have hnone := hplain hs
      refine BitVec.eq_of_getLsbD_eq fun i hi => ?_
      have hadd' := congrArg (fun x => x.getLsbD i) hadd
      have hnone' := congrArg (fun x => x.getLsbD i) hnone
      simp only [BitVec.getLsbD_and, BitVec.getLsbD_or, BitVec.getLsbD_zero] at hadd' hnone'
      simp only [BitVec.getLsbD_and, BitVec.getLsbD_not, decide_eq_true hi, Bool.true_and]
      cases hp : plainFlags.getLsbD i <;> cases hvi : v.uStates.getLsbD i <;>
        cases hui : u.uStates.getLsbD i <;> simp_all
    · rw [if_neg hs, plain_makeState, if_neg hs]
  have hprio : w.iPriority = u.iPriority := by
    rw [← hw, iPriority_makeState, iPriority_makeState]
    by_cases hp : v.bPriority = true
    · rw [if_pos hp, if_pos hp]
      have hnonneg := hpriority hp
      dsimp only
      split_ifs <;> omega
    · rw [if_neg hp, if_neg hp]
  have hselect : w.bStates = u.bStates ∧ w.bPriority = u.bPriority := by
    rw [← hw, (selectors_makeState _ v _).1, (selectors_makeState _ v _).2]
    exact selectors_makeState u v _
  have hstates := eq_of_consistent hconsistent hu hflags hcounts
  have hscheduled : w.uScheduled = u.uScheduled := hcounts .scheduled
  have hrequested : w.uRequested = u.uRequested := hcounts .requested
  have hmarked : w.uMarked = u.uMarked := hcounts .marked
  have hfields : w = ⟨w.bStates, w.bPriority, w.uStates, w.uScheduled, w.uRequested, w.uMarked, w.iPriority⟩ := rfl
  rw [hfields, hselect.1, hselect.2, hstates, hscheduled, hrequested, hmarked, hprio]

end Restoring

section Maps

variable {size : ℕ} {map : CRangeMap SPartRange}

theorem consistent_runUpdates {s : SPartRange} (hs : Consistent s)
    {updates : List (SPartRange × ESet)} (h : ∀ u ∈ updates, Built u.1) : Consistent (runUpdates s updates) := by
  induction updates generalizing s with
  | nil => exact hs
  | cons u updates ih =>
    exact ih (consistent_makeState hs (h u List.mem_cons_self).consistent u.2)
      fun other hm => h other (List.mem_cons_of_mem _ hm)

end Maps

section Frames

variable {size : ℕ} {map : CRangeMap SPartRange}

/-- The end of a range, which may stand for the whole rest of the map. -/
def rangeEnd (size uEnd : ℕ) : ℕ := if uEnd = minusOne then size else uEnd

/-- Flags and counters are the same. -/
def SameStates (s t : SPartRange) : Prop :=
  s.uStates = t.uStates ∧ ∀ c : ECounter, c.count s = c.count t

theorem setRange_rangeEnd (h : Canonical partMapOps size map) (uBegin uEnd : ℕ) (v : SPartRange)
    (eMode : ESet) : map.setRange partMapOps uBegin uEnd v eMode =
      map.setRange partMapOps uBegin (rangeEnd size uEnd) v eMode := by
  rw [rangeEnd]
  split_ifs with hend
  · rw [hend, setRange_minusOne, h.getSize]
  · rfl

/-- Flags that are added leave the priority, flags that are cleared leave one that is not
negative. -/
theorem iPriority_ofStates (u : SPartRange) (s : BitVec 32) {eMode : ESet}
    (hmode : eMode = ESet.eAdd ∨ eMode = ESet.eClr) :
    (SPartRange.makeState u (SPartRange.ofStates s) eMode).iPriority = u.iPriority ↔
      eMode = ESet.eAdd ∨ 0 ≤ u.iPriority := by
  have hzero : (SPartRange.ofStates s).iPriority = 0 := rfl
  have hselected : (SPartRange.ofStates s).bPriority = true := rfl
  rw [iPriority_makeState, if_pos hselected, hzero]
  rcases hmode with rfl | rfl
  · exact iff_of_true (add_zero _) (Or.inl rfl)
  · dsimp only
    rw [sub_zero]
    split_ifs with hpos
    · exact iff_of_true rfl (Or.inr hpos.le)
    · refine ⟨fun heq => Or.inr heq.le, fun hor => ?_⟩
      have hnonneg := hor.resolve_left (by decide)
      omega

theorem sameStates_priority (u : SPartRange) (iPriority : ℤ) (eMode : ESet) :
    SameStates (SPartRange.makeState u (priority iPriority) eMode) u := by
  refine ⟨?_, fun c => ?_⟩
  · cases eMode <;> rfl
  · have hselected : ¬(priority iPriority).bStates = true := Bool.false_ne_true
    rw [count_makeState, if_neg hselected]

/-- To add flags leaves the priority of every byte, to clear flags does so where no priority in the
range is negative; and a priority leaves flags and counters. -/
theorem setRange_frame (h : Reachable partMapOps size map) {uBegin uEnd : ℕ}
    (hlt : uBegin < rangeEnd size uEnd) (hend : rangeEnd size uEnd ≤ size) :
    (∀ (s : BitVec 32) (eMode : ESet), eMode = ESet.eAdd ∨ eMode = ESet.eClr → ((∀ x, (stateAt partMapOps
          (map.setRange partMapOps uBegin uEnd (SPartRange.ofStates s) eMode) x).iPriority =
        (stateAt partMapOps map x).iPriority) ↔
      eMode = ESet.eAdd ∨ ∀ x, uBegin ≤ x → x < rangeEnd size uEnd → 0 ≤ (stateAt partMapOps map x).iPriority)) ∧
    ∀ (iPriority : ℤ) (eMode : ESet) (x : ℕ), SameStates
      (stateAt partMapOps (map.setRange partMapOps uBegin uEnd (priority iPriority) eMode) x)
      (stateAt partMapOps map x) := by
  obtain ⟨hcanonical, hsize⟩ := h.canonical
  have hstate : ∀ (v : SPartRange) (eMode : ESet) (x : ℕ),
      stateAt partMapOps (map.setRange partMapOps uBegin uEnd v eMode) x = if uBegin ≤ x ∧ x < rangeEnd size uEnd then
          SPartRange.makeState (stateAt partMapOps map x) v eMode
        else stateAt partMapOps map x := fun v eMode x => by
    rw [setRange_rangeEnd hcanonical]
    exact stateAt_setRange hcanonical hsize hlt hend v eMode x
  refine ⟨fun s eMode hmode => ⟨fun hall => ?_, fun hcond x => ?_⟩, fun iPriority eMode x => ?_⟩
  · by_cases hadd : eMode = ESet.eAdd
    · exact Or.inl hadd
    · refine Or.inr fun x hfirst hlast => ?_
      have hx := hall x
      rw [hstate, if_pos ⟨hfirst, hlast⟩] at hx
      exact ((iPriority_ofStates _ s hmode).mp hx).resolve_left hadd
  · rw [hstate]
    by_cases hin : uBegin ≤ x ∧ x < rangeEnd size uEnd
    · rw [if_pos hin]
      exact (iPriority_ofStates _ s hmode).mpr (hcond.imp_right fun hall => hall x hin.1 hin.2)
    · rw [if_neg hin]
  · rw [hstate]
    by_cases hin : uBegin ≤ x ∧ x < rangeEnd size uEnd
    · rw [if_pos hin]
      exact sameStates_priority _ iPriority eMode
    · rw [if_neg hin]
      exact ⟨rfl, fun _ => rfl⟩

/-- A map of ten bytes of which half have a negative priority. -/
def loweredMap : CRangeMap SPartRange :=
  (CRangeMap.create partMapOps 10).setRange partMapOps 0 5 (priority (-3)) ESet.eSet

theorem reachable_loweredMap : Reachable partMapOps 10 loweredMap :=
  Reachable.setRange ⟨0, 5, priority (-3), ESet.eSet⟩ (Reachable.create (by decide) (by decide)) (by decide)

/-- Clearing flags leaves the priorities of the other half. -/
theorem setRange_frame_lowered : (stateAt partMapOps
    (loweredMap.setRange partMapOps 5 minusOne (SPartRange.ofStates 16) ESet.eClr) 3).iPriority =
      (stateAt partMapOps loweredMap 3).iPriority := by
  refine ((setRange_frame reachable_loweredMap (by decide) (by decide)).1 16 ESet.eClr
    (Or.inr rfl)).mpr (Or.inr fun x hfirst hlast => ?_) 3
  have hx : x < 10 := hlast
  interval_cases x <;> decide

/-- A flag that is added and cleared again takes a negative priority away. -/
theorem setRange_frame_lost : (stateAt partMapOps loweredMap 0).iPriority = -3 ∧
    (stateAt partMapOps ((loweredMap.setRange partMapOps 0 10 (SPartRange.ofStates 16)
      ESet.eAdd).setRange partMapOps 0 10 (SPartRange.ofStates 16) ESet.eClr) 0).iPriority = 0 := by
  decide

end Frames

end NeoLoader.PartCounters
