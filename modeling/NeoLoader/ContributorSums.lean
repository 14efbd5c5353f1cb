import NeoLoader.HosterMap
import NeoLoader.PartStates
import NeoLoader.RangeMapUpdate

/-!
# Maps that sum up what their contributors have

A contributor adds its value to a range of a map and takes it away again. The map stays the sum of
those present as long as each value that is taken away can be undone. Counters undo what did not
overflow them. The last public copy on a hoster is never undone.
-/

namespace NeoLoader.ContributorSums

open RangeMap PartStates HosterMap

section Contributors

variable {V : Type*} (ops : StateOps V)

/-- A contributor: a value on a range. -/
structure Contributor (V : Type*) where
  /-- First offset of the range. -/
  uBegin : ℕ
  /-- First offset after the range. -/
  uEnd : ℕ
  /-- The value. -/
  value : V

/-- The contributor has the byte. -/
def Contributor.Covers (c : Contributor V) (x : ℕ) : Prop := c.uBegin ≤ x ∧ x < c.uEnd

instance (c : Contributor V) (x : ℕ) : Decidable (c.Covers x) := instDecidableAnd

/-- The range is one of the map. -/
def Contributor.InRange (size : ℕ) (c : Contributor V) : Prop := c.uBegin < c.uEnd ∧ c.uEnd ≤ size

/-- `SetRange` with `eAdd`. -/
def add (map : CRangeMap V) (c : Contributor V) : CRangeMap V :=
  map.setRange ops c.uBegin c.uEnd c.value .eAdd

/-- `SetRange` with `eClr`. -/
def remove (map : CRangeMap V) (c : Contributor V) : CRangeMap V :=
  map.setRange ops c.uBegin c.uEnd c.value .eClr

/-- The sum at a byte of the contributors that have it. -/
def sumAt (present : List (Contributor V)) (x : ℕ) : V :=
  (present.filter fun c => c.Covers x).foldl (fun u c => ops.makeState u c.value .eAdd) ops.default

/-- The map after contributors were added and removed in some order, with those still present. The
others at each byte of a removed one undo it. -/
inductive Run (undoes : V → V → Prop) (size : ℕ) : List (Contributor V) → CRangeMap V → Prop
  /-- An empty map. -/
  | create : Run undoes size [] (CRangeMap.create ops size)
  /-- A contributor is added. -/
  | add {present : List (Contributor V)} {map : CRangeMap V} (c : Contributor V) :
    Run undoes size present map → c.InRange size → Run undoes size (c :: present) (add ops map c)
  /-- A contributor is removed. -/
  | remove {present rest : List (Contributor V)} {map : CRangeMap V} (c : Contributor V) :
    Run undoes size present map → present.Perm (c :: rest) →
    (∀ x, c.Covers x → undoes (sumAt ops rest x) c.value) →
    Run undoes size rest (remove ops map c)

/-- A map whose contributors can be taken away where they are undone, and only there. -/
structure Law (undoes : V → V → Prop) : Prop where
  /-- A value is added and taken away without a trace if and only if all its bytes undo it. -/
  restore : ∀ size map, Reachable ops size map → ∀ c : Contributor V, c.InRange size →
    ((∀ x, stateAt ops (remove ops (add ops map c) c) x = stateAt ops map x) ↔
      ∀ x, c.Covers x → undoes (stateAt ops map x) c.value)
  /-- In any run the map is the sum of the contributors present. -/
  sum : ∀ size, 0 < size → size < 2 ^ 64 → ∀ present map, Run ops undoes size present map →
    ∀ x, stateAt ops map x = sumAt ops present x
  /-- It stays the sum when one is removed if and only if the others undo it. -/
  remove : ∀ size, 0 < size → size < 2 ^ 64 → ∀ present map, Run ops undoes size present map →
    ∀ c rest, present.Perm (c :: rest) → ((∀ x, stateAt ops (remove ops map c) x = sumAt ops rest x) ↔
        ∀ x, c.Covers x → undoes (sumAt ops rest x) c.value)

section Sums

variable {ops} {map : CRangeMap V} {undoes : V → V → Prop} {size : ℕ}

theorem Run.inRange {present : List (Contributor V)} (h : Run ops undoes size present map) :
    ∀ c ∈ present, c.InRange size := by
  induction h with
  | create => exact nofun
  | add c _ hc ih => exact List.forall_mem_cons.mpr ⟨hc, ih⟩
  | remove c _ hperm _ ih =>
    exact fun d hd => ih d (hperm.mem_iff.mpr (List.mem_cons_of_mem _ hd))

variable {c : Contributor V}

theorem stateAt_add (h : Canonical ops size map) (hsize : size < 2 ^ 64) (hc : c.InRange size) (x : ℕ) :
    stateAt ops (add ops map c) x =
      if c.Covers x then ops.makeState (stateAt ops map x) c.value .eAdd else stateAt ops map x :=
  stateAt_setRange h hsize hc.1 hc.2 c.value .eAdd x

theorem stateAt_remove (h : Canonical ops size map) (hsize : size < 2 ^ 64) (hc : c.InRange size) (x : ℕ) :
    stateAt ops (remove ops map c) x =
      if c.Covers x then ops.makeState (stateAt ops map x) c.value .eClr else stateAt ops map x :=
  stateAt_setRange h hsize hc.1 hc.2 c.value .eClr x

variable (hcomm : ∀ u v w, ops.makeState (ops.makeState u v .eAdd) w .eAdd =
  ops.makeState (ops.makeState u w .eAdd) v .eAdd)

include hcomm

theorem sumAt_perm {present present' : List (Contributor V)} (h : present.Perm present') (x : ℕ) :
    sumAt ops present x = sumAt ops present' x :=
  (h.filter _).foldl_eq' (fun c _ d _ u => hcomm u c.value d.value) _

/-- A contributor more adds its value where it has the byte. -/
theorem sumAt_cons (c : Contributor V) (present : List (Contributor V)) (x : ℕ) : sumAt ops (c :: present) x =
      if c.Covers x then ops.makeState (sumAt ops present x) c.value .eAdd
      else sumAt ops present x := by
  rw [sumAt_perm hcomm (List.perm_append_singleton c present).symm, sumAt, List.filter_append,
    List.foldl_append, List.filter_singleton]
  by_cases hc : c.Covers x
  · rw [decide_eq_true hc, if_pos hc]
    rfl
  · rw [decide_eq_false hc, if_neg hc]
    rfl

theorem stateAt_remove_of_sum {present rest : List (Contributor V)}
    (h : Canonical ops size map) (hsize : size < 2 ^ 64) (hc : c.InRange size)
    (hsum : ∀ x, stateAt ops map x = sumAt ops present x) (hperm : present.Perm (c :: rest)) (x : ℕ) :
    stateAt ops (remove ops map c) x = if c.Covers x then
        ops.makeState (ops.makeState (sumAt ops rest x) c.value .eAdd) c.value .eClr
      else sumAt ops rest x := by
  rw [stateAt_remove h hsize hc, hsum, sumAt_perm hcomm hperm, sumAt_cons hcomm]
  split_ifs <;> rfl

section

variable (hundo : ∀ u v, ops.makeState (ops.makeState u v .eAdd) v .eClr = u ↔ undoes u v)

include hundo

/-- Runs keep the map the sum of the contributors present. -/
theorem Run.spec (hpos : 0 < size) (hsize : size < 2 ^ 64) {present : List (Contributor V)}
    (h : Run ops undoes size present map) : Canonical ops size map ∧ ∀ x, stateAt ops map x = sumAt ops present x := by
  induction h with
  | create => exact ⟨canonical_create ops hpos, fun x => stateAt_create ops size x⟩
  | add c _ hc ih =>
    refine ⟨setRange_canonical ih.1 hsize hc.1 hc.2 c.value .eAdd, fun x => ?_⟩
    rw [stateAt_add ih.1 hsize hc, sumAt_cons hcomm, ih.2 x]
  | remove c hrun hperm hundone ih =>
    have hc := hrun.inRange c (hperm.mem_iff.mpr List.mem_cons_self)
    refine ⟨setRange_canonical ih.1 hsize hc.1 hc.2 c.value .eClr, fun x => ?_⟩
    rw [stateAt_remove_of_sum hcomm ih.1 hsize hc ih.2 hperm]
    split_ifs with hin
    · exact (hundo _ _).mpr (hundone x hin)
    · rfl

/-- Values that may be added in any order, and that a condition undoes, obey the law. -/
theorem law_of_undoes : Law ops undoes where
  restore := by
    intro size map hreach c hc
    obtain ⟨hmap, hsize⟩ := hreach.canonical
    have hadd : Canonical ops size (ContributorSums.add ops map c) :=
      setRange_canonical hmap hsize hc.1 hc.2 c.value .eAdd
    refine forall_congr' fun x => ?_
    rw [stateAt_remove hadd hsize hc, stateAt_add hmap hsize hc]
    by_cases hin : c.Covers x
    · rw [if_pos hin, if_pos hin, forall_prop_of_true hin, hundo]
    · rw [if_neg hin, if_neg hin]
      exact iff_of_true rfl fun h => absurd h hin
  sum := fun size hpos hsize present map hrun => (hrun.spec hcomm hundo hpos hsize).2
  remove := by
    intro size hpos hsize present map hrun c rest hperm
    obtain ⟨hmap, hsum⟩ := hrun.spec hcomm hundo hpos hsize
    have hc := hrun.inRange c (hperm.mem_iff.mpr List.mem_cons_self)
    refine forall_congr' fun x => ?_
    rw [stateAt_remove_of_sum hcomm hmap hsize hc hsum hperm]
    split_ifs with hin
    · rw [forall_prop_of_true hin, hundo]
    · exact iff_of_true rfl fun h => absurd h hin

end

end Sums

end Contributors

section Maps

/-- A counter that does not overflow. -/
def Fits (u v : BitVec 32) : Prop := u.toNat + v.toNat < 2 ^ 32

theorem availMakeState_undo_iff (u v : BitVec 32) :
    availMakeState (availMakeState u v .eAdd) v .eClr = u ↔ Fits u v := by
  have hu := u.isLt
  have hv := v.isLt
  have hback : (numClr (u + v) v).toNat = (u.toNat + v.toNat) % 2 ^ 32 - v.toNat := by
    rw [toNat_numClr, BitVec.toNat_add]
  rw [← BitVec.toNat_inj, availMakeState, availMakeState, hback, Fits]
  omega

/-- Both counters of a cache map fit. -/
def FitsBoth (u v : SCacheRange) : Prop := Fits u.uAvail v.uAvail ∧ Fits u.uNeed v.uNeed

theorem cacheMapOps_undo_iff (u v : SCacheRange) :
    cacheMapOps.makeState (cacheMapOps.makeState u v .eAdd) v .eClr = u ↔ FitsBoth u v := by
  obtain ⟨uAvail, uNeed⟩ := u
  have hboth : cacheMapOps.makeState (cacheMapOps.makeState ⟨uAvail, uNeed⟩ v .eAdd) v .eClr =
      ⟨availMakeState (availMakeState uAvail v.uAvail .eAdd) v.uAvail .eClr,
        availMakeState (availMakeState uNeed v.uNeed .eAdd) v.uNeed .eClr⟩ := rfl
  rw [hboth, SCacheRange.mk.injEq, availMakeState_undo_iff, availMakeState_undo_iff, FitsBoth]

theorem availMakeState_right_comm (u v w : BitVec 32) : availMakeState (availMakeState u v .eAdd) w .eAdd =
      availMakeState (availMakeState u w .eAdd) v .eAdd := by
  show u + v + w = u + w + v
  rw [BitVec.add_assoc, BitVec.add_comm v, BitVec.add_assoc]

/-- The three maps restore what can be undone, and are sums of their contributors as long as it is
undone: counts of sources and copies unless they overflow, and hosters unless a public count or the
last copy of an entry is in the way. -/
theorem statusMaps_law (κ α : Type*) [LinearOrder κ] [LinearOrder α] :
    Law availMapOps Fits ∧ Law cacheMapOps FitsBoth ∧ Law (hosterMapOps κ α) Undoes := by
  refine ⟨law_of_undoes availMakeState_right_comm availMakeState_undo_iff, ?_, ?_⟩
  · refine law_of_undoes (fun u v w => ?_) cacheMapOps_undo_iff
    exact congrArg₂ SCacheRange.mk (availMakeState_right_comm _ _ _) (availMakeState_right_comm _ _ _)
  · exact law_of_undoes hosterAdd_right_comm hosterClear_hosterAdd_iff

/-- A public copy on a new hoster stays behind when it is taken away. -/
theorem publicCopy_stays :
    let map := CRangeMap.create (hosterMapOps ℕ ℕ) 10
    let c : Contributor (Hosters ℕ ℕ) := ⟨0, 10, mkValue 7 none 1⟩
    stateAt (hosterMapOps ℕ ℕ) (remove (hosterMapOps ℕ ℕ) (add (hosterMapOps ℕ ℕ) map c) c) 0 ≠
      stateAt (hosterMapOps ℕ ℕ) map 0 := by
  decide

end Maps

end NeoLoader.ContributorSums
