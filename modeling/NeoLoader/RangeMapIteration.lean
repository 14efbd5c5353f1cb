import Mathlib.Data.List.TakeWhile
import NeoLoader.RangeMapUpdate
import NeoLoader.Tiling

/-!
# Iteration over the range map

A step of the iterator finds the entry around the current offset, extends it
while the masked state stays the same, and clips the result to the window.
The stored position is used only if nothing changed since it was stored, and
then it is the position a fresh search finds. The steps tile the window, for
windows that are not empty or reversed.
-/

namespace NeoLoader.RangeMap

open StepFunction Tiling

section Search

variable {V : Type*} {ops : StateOps V} {size : ℕ} {map : CRangeMap V}

theorem valueAt_eq_getElem? (partMap : List (ℕ × V)) (x : ℕ) :
    valueAt partMap x = partMap[lowerBound partMap (x + 1)]?.map Prod.snd := by
  induction partMap with
  | nil => rfl
  | cons part rest ih =>
    rw [valueAt_cons, lowerBound_cons]
    by_cases hx : x < part.1
    · rw [if_pos hx, if_pos (by omega), List.getElem?_cons_zero, Option.map_some]
    · rw [if_neg hx, if_neg (by omega), List.getElem?_cons_succ, ih]

/-- The search for the offset after a key ends at the next entry. -/
theorem lowerBound_succ_key {partMap : List (ℕ × V)} (h : Increasing partMap) {i : ℕ}
    (hi : i < partMap.length) : lowerBound partMap ((partMap[i]).1 + 1) = i + 1 := by
  have hge : i < lowerBound partMap ((partMap[i]).1 + 1) := by
    by_contra hle
    rw [not_lt, lowerBound_le_iff h hi] at hle
    omega
  have hle : lowerBound partMap ((partMap[i]).1 + 1) ≤ i + 1 := by
    by_cases hnext : i + 1 < partMap.length
    · rw [lowerBound_le_iff h hnext]
      exact List.pairwise_iff_getElem.mp h _ _ hi hnext (Nat.lt_succ_self i)
    · have hlen : lowerBound partMap ((partMap[i]).1 + 1) ≤ partMap.length :=
        List.findIdx_le_length
      omega
  omega

theorem Canonical.lowerBound_lt (h : Canonical ops size map) {key : ℕ} (hk : key ≤ size) :
    lowerBound map.partMap key < map.partMap.length := by
  obtain ⟨last, hm, he⟩ := h.exists_last
  exact lowerBound_lt_length hm (by omega)

/-- The rest of the loop of `GetRange`, for a property that a merge has if both
of its arguments have it. -/
theorem getRangeLoop_forall {eMode : EMerge} {test : V → Prop}
    (hmerge : ∀ u v, test (ops.mergeState u v eMode) ↔ test u ∧ test v) (uBegin : ℕ) (uMask : V)
    (parts : List (ℕ × V)) (hparts : parts.Pairwise fun a b => b.1 < a.1) (uState : V) :
    test (CRangeMap.getRangeLoop ops uBegin eMode uMask parts (some uState)) ↔
      test uState ∧ ∀ part ∈ parts, uBegin < part.1 → test (CRangeMap.masked ops uMask part.2) := by
  induction parts generalizing uState with
  | nil =>
    rw [CRangeMap.getRangeLoop, Option.getD_some]
    exact ⟨fun h => ⟨h, fun part hm => by cases hm⟩, fun h => h.1⟩
  | cons part parts ih =>
    obtain ⟨hlt, htail⟩ := List.pairwise_cons.mp hparts
    rw [CRangeMap.getRangeLoop]
    by_cases hpast : part.1 ≤ uBegin
    · rw [if_pos hpast, Option.getD_some]
      refine ⟨fun h => ⟨h, fun other hm hb => ?_⟩, fun h => h.1⟩
      rcases List.mem_cons.mp hm with rfl | hm
      · omega
      · have := hlt other hm
        omega
    · rw [if_neg hpast]
      dsimp only
      rw [ih htail, hmerge, List.forall_mem_cons]
      constructor
      · rintro ⟨⟨h1, h2⟩, h3⟩
        exact ⟨h2, fun _ => h1, h3⟩
      · rintro ⟨h2, h1, h3⟩
        exact ⟨⟨h1 (not_le.mp hpast), h2⟩, h3⟩

/-- `GetRange` on one byte gives the masked state of the byte. -/
theorem getRange_byte (h : Canonical ops size map) (hsize : size < 2 ^ 64) (eMode : EMerge)
    (uMask : V) {x : ℕ} (hx : x < size) {v : V} (hv : valueAt map.partMap x = some v) :
    map.getRange ops x (x + 1) eMode uMask = CRangeMap.masked ops uMask v := by
  have harg : (if x + 1 = minusOne then map.getSize else x + 1) = x + 1 := by
    rw [h.getSize, minusOne]
    split <;> omega
  have hlen : lowerBound map.partMap (x + 1) < map.partMap.length := h.lowerBound_lt hx
  rw [valueAt_eq_getElem?, List.getElem?_eq_getElem hlen, Option.map_some, Option.some.injEq] at hv
  have hkey := le_getElem_lowerBound hlen
  rw [CRangeMap.getRange, harg]
  rw [if_neg (by omega), List.take_succ_eq_append_getElem hlen, List.reverse_append,
    List.reverse_singleton, List.singleton_append, CRangeMap.getRangeLoop, if_neg (by omega), hv]
  dsimp only
  -- the entry before the one found ends at or before the byte
  cases hfront : (map.partMap.take (lowerBound map.partMap (x + 1))).reverse with
  | nil => rw [CRangeMap.getRangeLoop, Option.getD_some]
  | cons part rest =>
    have hm : part ∈ map.partMap.take (lowerBound map.partMap (x + 1)) := by
      rw [← List.mem_reverse, hfront]
      exact List.mem_cons_self
    rw [take_lowerBound] at hm
    have hlt := List.mem_takeWhile_imp hm
    rw [decide_eq_true_eq] at hlt
    rw [CRangeMap.getRangeLoop, if_pos (by omega), Option.getD_some]

end Search

/-- The hint is not newer than the map, and if it is as new, its position
lies in the map. -/
def HintOk {V : Type*} (map : CRangeMap V) (pHint : Option SIterHint) : Prop :=
  ∀ hint, pHint = some hint → hint.revision ≤ map.revision ∧
    (hint.revision = map.revision → hint.iter < map.partMap.length)

theorem hintOk_none {V : Type*} (map : CRangeMap V) : HintOk map none := by
  intro hint hh
  cases hh

section Next

variable {V : Type*} {ops : StateOps V} {size : ℕ} {map : CRangeMap V}

/-- What the iteration sees of a byte. -/
def seen (ops : StateOps V) (map : CRangeMap V) (uMask : V) (x : ℕ) : Option V :=
  (valueAt map.partMap x).map (CRangeMap.masked ops uMask)

theorem stored_masked {v : V} (hv : ops.Stored v) (uMask : V) : ops.Stored (CRangeMap.masked ops uMask v) := by
  rw [CRangeMap.masked]
  split
  · exact ops.stored_mergeState hv uMask _
  · exact hv

variable {pHint : Option SIterHint}

/-- A valid hint leads to the position a fresh search finds. -/
theorem position_eq_lowerBound (h : Canonical ops size map) (hsize : size < 2 ^ 64) {uEnd : ℕ}
    (hpos : 0 < uEnd) (hh : HintOk map pHint) : map.position uEnd pHint = lowerBound map.partMap uEnd := by
  cases pHint with
  | none => rfl
  | some hint =>
    rw [CRangeMap.position]
    split
    · rename_i hvalid
      rw [CRangeMap.hintValid, Bool.and_eq_true, beq_iff_eq, beq_iff_eq] at hvalid
      obtain ⟨hrev, hkey⟩ := hvalid
      have hiter := (hh hint rfl).2 hrev
      have hle : (map.partMap[hint.iter]).1 ≤ size := h.le_size (List.getElem_mem hiter)
      rw [List.getElem?_eq_getElem hiter, Option.map_some, Option.getD_some] at hkey
      have huEnd : (map.partMap[hint.iter]).1 + 1 = uEnd := by
        rcases Nat.lt_or_ge ((map.partMap[hint.iter]).1 + 1) (2 ^ 64) with hlt | hge
        · rwa [Nat.mod_eq_of_lt hlt] at hkey
        · have hwrap : (map.partMap[hint.iter]).1 + 1 = 2 ^ 64 := by omega
          rw [hwrap, Nat.mod_self] at hkey
          omega
      rw [← huEnd, lowerBound_succ_key h.increasing hiter]
    · rfl

/-- The masked loop stops at the end of the last entry with the same masked
state. -/
theorem extend_spec (uMask uState : V) (hstate : ops.Stored uState) (part : ℕ × V)
    (rest : List (ℕ × V)) (iter : ℕ) (hinc : Increasing (part :: rest)) (hstored : ∀ part ∈ rest, ops.Stored part.2) :
    (∃ last ∈ part :: rest, last.1 = (CRangeMap.extend ops uMask uState rest part.1 iter).1) ∧
      (CRangeMap.extend ops uMask uState rest part.1 iter).2 ≤ iter + rest.length ∧
      (∀ x, part.1 ≤ x → x < (CRangeMap.extend ops uMask uState rest part.1 iter).1 →
        (valueAt rest x).map (fun v => ops.mergeState v uMask EMerge.eInter) = some uState) ∧
      ∀ next ∈ rest, (CRangeMap.extend ops uMask uState rest part.1 iter).1 < next.1 →
        (valueAt rest (CRangeMap.extend ops uMask uState rest part.1 iter).1).map
          (fun v => ops.mergeState v uMask EMerge.eInter) ≠ some uState := by
  induction rest generalizing part iter with
  | nil =>
    rw [CRangeMap.extend]
    refine ⟨⟨part, List.mem_cons_self, rfl⟩, Nat.le_refl _, fun x h1 h2 => by omega, ?_⟩
    intro next hm
    cases hm
  | cons next rest ih =>
    obtain ⟨hlt, ht⟩ := List.pairwise_cons.mp hinc
    have hpn : part.1 < next.1 := hlt next List.mem_cons_self
    have hmerged : ops.Stored (ops.mergeState next.2 uMask EMerge.eInter) :=
      ops.stored_mergeState (hstored next List.mem_cons_self) uMask _
    rw [CRangeMap.extend]
    split
    · rename_i hmatch
      have heq := (ops.matchState_iff hstate hmerged).mp hmatch
      obtain ⟨⟨last, hm, hl⟩, hiter, hsame, hstop⟩ := ih next (iter + 1) ht
        fun part hm => hstored part (List.mem_cons_of_mem _ hm)
      refine ⟨⟨last, List.mem_cons_of_mem _ hm, hl⟩, ?_, ?_, ?_⟩
      · rw [List.length_cons]
        omega
      · intro x hx hxl
        rw [valueAt_cons]
        split
        · rw [Option.map_some, heq]
        · exact hsame x (by omega) hxl
      · intro other hm' hother
        have hnext : next.1 ≤ (CRangeMap.extend ops uMask uState rest next.1 (iter + 1)).1 := by
          rw [← hl]
          rcases List.mem_cons.mp hm with rfl | hm
          · exact le_rfl
          · exact ((List.pairwise_cons.mp ht).1 last hm).le
        rw [valueAt_cons, if_neg (by omega)]
        rcases List.mem_cons.mp hm' with rfl | hm'
        · omega
        · exact hstop other hm' hother
    · rename_i hmatch
      refine ⟨⟨part, List.mem_cons_self, rfl⟩, by dsimp only; omega, fun x h1 h2 => ?_, ?_⟩
      · dsimp only at h2
        omega
      · intro other hm hother
        rw [valueAt_cons, if_pos hpn, Option.map_some]
        intro heq
        rw [Option.some.injEq] at heq
        exact hmatch ((ops.matchState_iff hstate hmerged).mpr heq.symm)

/-- The range found around an offset does not start after it. -/
theorem startOf_le (map : CRangeMap V) (x : ℕ) : map.startOf (lowerBound map.partMap (x + 1)) ≤ x := by
  rw [CRangeMap.startOf]
  split
  · exact Nat.zero_le _
  · cases hg : map.partMap[lowerBound map.partMap (x + 1) - 1]? with
    | none => exact Nat.zero_le _
    | some part =>
      obtain ⟨hi, rfl⟩ := List.getElem?_eq_some_iff.mp hg
      have hlt : (map.partMap[lowerBound map.partMap (x + 1) - 1]).1 < x + 1 :=
        getElem_lt_of_lt_lowerBound (by omega) hi
      rw [Option.map_some, Option.getD_some]
      omega

/-- The bytes between the start and the key of an entry hold its state. -/
theorem valueAt_of_startOf_le (h : Increasing map.partMap) {i x : ℕ} (hi : i < map.partMap.length)
    (hx : map.startOf i ≤ x) (hx' : x < (map.partMap[i]).1) : valueAt map.partMap x = some (map.partMap[i]).2 := by
  have hle : lowerBound map.partMap (x + 1) ≤ i := (lowerBound_le_iff h hi).mpr hx'
  have hge : i ≤ lowerBound map.partMap (x + 1) := by
    by_contra hlt
    have hi' : i - 1 < map.partMap.length := by omega
    have hkey : x + 1 ≤ (map.partMap[i - 1]).1 := by
      rw [← lowerBound_le_iff h hi']
      omega
    rw [CRangeMap.startOf, if_neg (by omega), List.getElem?_eq_getElem hi', Option.map_some, Option.getD_some] at hx
    omega
  have he : lowerBound map.partMap (x + 1) = i := by omega
  rw [valueAt_eq_getElem?, he, List.getElem?_eq_getElem hi, Option.map_some]

/-- `GetRange` over a window has a property if the masked states of all bytes of
the window have it. -/
theorem getRange_forall (h : Canonical ops size map) (hsize : size < 2 ^ 64) {eMode : EMerge}
    {test : V → Prop} (hmerge : ∀ u v, test (ops.mergeState u v eMode) ↔ test u ∧ test v)
    {uBegin uEnd : ℕ} (hlt : uBegin < uEnd) (hend : uEnd ≤ size) (uMask : V) :
    test (map.getRange ops uBegin uEnd eMode uMask) ↔
      ∀ x, uBegin ≤ x → x < uEnd → test (CRangeMap.masked ops uMask (stateAt ops map x)) := by
  have harg : (if uEnd = minusOne then map.getSize else uEnd) = uEnd := by
    rw [h.getSize, minusOne]
    split <;> omega
  have hlen : lowerBound map.partMap uEnd < map.partMap.length := h.lowerBound_lt hend
  have hkey := le_getElem_lowerBound hlen
  have hstate : ∀ i (hi : i < map.partMap.length) x, map.startOf i ≤ x →
      x < (map.partMap[i]).1 → stateAt ops map x = (map.partMap[i]).2 := fun i hi x h1 h2 => by
    rw [stateAt, valueAt_of_startOf_le h.increasing hi h1 h2, Option.getD_some]
  have hprefix : ((map.partMap.take (lowerBound map.partMap uEnd)).reverse).Pairwise fun a b => b.1 < a.1 :=
    List.pairwise_reverse.mpr (h.increasing.sublist (List.take_sublist _ _))
  rw [CRangeMap.getRange, harg, if_neg (by omega), List.take_succ_eq_append_getElem hlen,
    List.reverse_append, List.reverse_singleton, List.singleton_append, CRangeMap.getRangeLoop,
    if_neg (by omega)]
  dsimp only
  rw [getRangeLoop_forall hmerge uBegin uMask _ hprefix]
  constructor
  · rintro ⟨hlast, hparts⟩ x h1 h2
    -- the entry over the byte is one of those the loop reads
    have hle : lowerBound map.partMap (x + 1) ≤ lowerBound map.partMap uEnd :=
      (lowerBound_le_iff h.increasing hlen).mpr (by omega)
    have hi : lowerBound map.partMap (x + 1) < map.partMap.length := by omega
    have hx := le_getElem_lowerBound hi
    rw [hstate _ hi x (startOf_le map x) hx]
    rcases Nat.eq_or_lt_of_le hle with heq | hless
    · simp only [heq]
      exact hlast
    · refine hparts _ (List.mem_reverse.mpr (List.mem_take_iff_getElem.mpr ⟨_, by omega, rfl⟩)) (by omega)
  · intro hall
    have hread : ∀ i (hi : i < map.partMap.length), i ≤ lowerBound map.partMap uEnd →
        uBegin < (map.partMap[i]).1 → test (CRangeMap.masked ops uMask (map.partMap[i]).2) := by
      intro i hi hle hb
      have hstart : map.startOf i < uEnd ∧ map.startOf i < (map.partMap[i]).1 := by
        rw [CRangeMap.startOf]
        split
        · omega
        · have hprev : i - 1 < map.partMap.length := by omega
          have h1 := getElem_lt_of_lt_lowerBound (show i - 1 < lowerBound map.partMap uEnd by omega) hprev
          have h2 := List.pairwise_iff_getElem.mp h.increasing (i - 1) i hprev hi (by omega)
          rw [List.getElem?_eq_getElem hprev, Option.map_some, Option.getD_some]
          exact ⟨h1, h2⟩
      rw [← hstate i hi (max uBegin (map.startOf i)) (by omega) (by omega)]
      exact hall _ (by omega) (by omega)
    refine ⟨hread _ hlen le_rfl (by omega), fun part hm hb => ?_⟩
    obtain ⟨i, hi, rfl⟩ := List.mem_take_iff_getElem.mp (List.mem_reverse.mp hm)
    exact hread i (by omega) (by omega) hb

/-- The bytes from the key of an entry on are decided by the later entries. -/
theorem valueAt_drop (h : Increasing map.partMap) {i x : ℕ} (hi : i < map.partMap.length)
    (hx : (map.partMap[i]).1 ≤ x) : valueAt map.partMap x = valueAt (map.partMap.drop (i + 1)) x := by
  have hle : ∀ part ∈ map.partMap.take (i + 1), part.1 ≤ x := by
    intro part hm
    obtain ⟨j, hj, rfl⟩ := List.mem_take_iff_getElem.mp hm
    rcases Nat.eq_or_lt_of_le (show j ≤ i by omega) with rfl | hlt
    · exact hx
    · have := List.pairwise_iff_getElem.mp h j i (by omega) hi hlt
      omega
  have hsplit : valueAt (map.partMap.take (i + 1) ++ map.partMap.drop (i + 1)) x =
      valueAt (map.partMap.drop (i + 1)) x := valueAt_append_of_le hle
  rwa [List.take_append_drop] at hsplit

/-- Where the range of `GetNextRange` ends: at the last entry up to which the
masked state stays the same. Without a mask that is the entry itself, since
its neighbour differs. -/
theorem reach_spec (h : Canonical ops size map) (uMask : V) {i : ℕ} (hi : i < map.partMap.length) {reach : ℕ × ℕ}
    (hreach : reach = if ops.stateSet uMask then
      CRangeMap.extend ops uMask (CRangeMap.masked ops uMask (map.partMap[i]).2)
        (map.partMap.drop (i + 1)) (map.partMap[i]).1 i else ((map.partMap[i]).1, i)) :
    (∃ last ∈ map.partMap[i] :: map.partMap.drop (i + 1), last.1 = reach.1) ∧ reach.2 < map.partMap.length ∧
      (∀ x, (map.partMap[i]).1 ≤ x → x < reach.1 → seen ops map uMask x =
        some (CRangeMap.masked ops uMask (map.partMap[i]).2)) ∧
      ∀ next ∈ map.partMap.drop (i + 1), reach.1 < next.1 → seen ops map uMask reach.1 ≠
        some (CRangeMap.masked ops uMask (map.partMap[i]).2) := by
  have hdrop : map.partMap.drop i = map.partMap[i] :: map.partMap.drop (i + 1) :=
    List.drop_eq_getElem_cons hi
  have hinc : Increasing (map.partMap[i] :: map.partMap.drop (i + 1)) := by
    rw [← hdrop]
    exact List.Pairwise.sublist (List.drop_sublist _ _) h.increasing
  have hseen : ∀ x, (map.partMap[i]).1 ≤ x → seen ops map uMask x =
      (valueAt (map.partMap.drop (i + 1)) x).map (CRangeMap.masked ops uMask) := fun x hx => by
    rw [seen, valueAt_drop h.increasing hi hx]
  by_cases hset : ops.stateSet uMask = true
  · have hmasked : CRangeMap.masked ops uMask = fun v => ops.mergeState v uMask EMerge.eInter := by
      funext v
      rw [CRangeMap.masked, if_pos hset]
    have hstate := stored_masked (h.stored _ (List.getElem_mem hi)) uMask
    obtain ⟨⟨last, hm, hl⟩, hiter, hsame, hstop⟩ :=
      extend_spec uMask _ hstate (map.partMap[i]) (map.partMap.drop (i + 1)) i hinc
        fun part hm => h.stored part (List.mem_of_mem_drop hm)
    rw [if_pos hset] at hreach
    rw [← hreach] at hl hiter hsame hstop
    have hge : (map.partMap[i]).1 ≤ reach.1 := by
      rw [← hl]
      rcases List.mem_cons.mp hm with rfl | hm
      · exact le_rfl
      · exact ((List.pairwise_cons.mp hinc).1 last hm).le
    rw [List.length_drop] at hiter
    refine ⟨⟨last, hm, hl⟩, by omega, fun x hx hx' => ?_, fun next hm' hlt => ?_⟩
    · rw [hseen x hx]
      conv_lhs => rw [hmasked]
      exact hsame x hx hx'
    · rw [hseen _ hge]
      conv_lhs => rw [hmasked]
      exact hstop next hm' hlt
  · rw [if_neg hset] at hreach
    subst hreach
    have hmasked : CRangeMap.masked ops uMask = id := by
      funext v
      rw [CRangeMap.masked, if_neg hset, id]
    refine ⟨⟨_, List.mem_cons_self, rfl⟩, hi, fun x hx hx' => by dsimp only at hx'; omega, ?_⟩
    intro next hm hlt
    have hnext : i + 1 < map.partMap.length := by
      have := List.length_pos_of_mem hm
      rw [List.length_drop] at this
      omega
    have hlt' : (map.partMap[i]).1 < (map.partMap[i + 1]).1 :=
      List.pairwise_iff_getElem.mp h.increasing _ _ hi hnext (Nat.lt_succ_self i)
    have hne := List.isChain_iff_getElem.mp h.distinct i hnext
    rw [hseen _ le_rfl, List.drop_eq_getElem_cons hnext, valueAt_cons, if_pos hlt', hmasked,
      Option.map_some, id, id, ne_eq, Option.some.injEq]
    intro heq
    have hmatch := (ops.matchState_iff (h.stored _ (List.getElem_mem hi))
      (h.stored _ (List.getElem_mem hnext))).mpr heq.symm
    rw [hne] at hmatch
    exact Bool.false_ne_true hmatch

/-- What `GetNextRange` finds around an offset: the largest range to the right
on which the masked state stays the same. -/
structure FoundAt (ops : StateOps V) (size : ℕ) (map : CRangeMap V) (uMask : V) (cur : ℕ)
    (next : NextRange V) : Prop where
  /-- A range was found. -/
  found : next.found = true
  /-- It does not start after the offset. -/
  uBegin_le : next.uBegin ≤ cur
  /-- It ends after the offset. -/
  lt_uEnd : cur < next.uEnd
  /-- It ends in the map. -/
  uEnd_le : next.uEnd ≤ size
  /-- Its bytes all have the returned masked state. -/
  same : ∀ x, next.uBegin ≤ x → x < next.uEnd → seen ops map uMask x = some next.uState
  /-- The byte after it has another masked state. -/
  stop : next.uEnd < size → seen ops map uMask next.uEnd ≠ some next.uState

section

variable (h : Canonical ops size map) (hsize : size < 2 ^ 64) {uBegin uEnd cur : ℕ}
  (hcur : (if uBegin > uEnd then uBegin else uEnd) = cur)

include h hsize hcur

/-- A search from inside the map finds the range around the offset. -/
theorem getNextRange_found (hlt : cur < size) (uState uMask : V) (hh : HintOk map pHint) :
    FoundAt ops size map uMask cur (map.getNextRange ops uBegin uEnd uState uMask pHint) ∧
      HintOk map (map.getNextRange ops uBegin uEnd uState uMask pHint).pHint := by
  have hmod : (cur + 1) % 2 ^ 64 = cur + 1 := Nat.mod_eq_of_lt (by omega)
  have hpos := position_eq_lowerBound h hsize (Nat.succ_pos cur) hh
  have hi : lowerBound map.partMap (cur + 1) < map.partMap.length := h.lowerBound_lt hlt
  have hkey := le_getElem_lowerBound hi
  have hstart := startOf_le map cur
  simp only [CRangeMap.getNextRange, hcur, hmod, hpos, List.getElem?_eq_getElem hi]
  generalize lowerBound map.partMap (cur + 1) = i at *
  generalize hreach : (if ops.stateSet uMask then
    CRangeMap.extend ops uMask (CRangeMap.masked ops uMask (map.partMap[i]).2)
      (map.partMap.drop (i + 1)) (map.partMap[i]).1 i else ((map.partMap[i]).1, i)) = reach
  obtain ⟨⟨last, hm, hl⟩, hiter, hsame, hstop⟩ := reach_spec h uMask hi hreach.symm
  have hdrop : map.partMap.drop i = map.partMap[i] :: map.partMap.drop (i + 1) :=
    List.drop_eq_getElem_cons hi
  have hge : (map.partMap[i]).1 ≤ reach.1 := by
    rw [← hl]
    rcases List.mem_cons.mp hm with rfl | hm
    · exact le_rfl
    · have hinc := List.Pairwise.sublist (List.drop_sublist i _) h.increasing
      rw [hdrop] at hinc
      exact ((List.pairwise_cons.mp hinc).1 last hm).le
  constructor
  · refine ⟨rfl, hstart, by dsimp only; omega, ?_, fun x hx hx' => ?_, fun hend => ?_⟩
    · rw [← hdrop] at hm
      rw [← hl]
      exact h.le_size (List.mem_of_mem_drop hm)
    · rcases Nat.lt_or_ge x (map.partMap[i]).1 with hlow | hhigh
      · rw [seen, valueAt_of_startOf_le h.increasing hi hx hlow, Option.map_some]
      · exact hsame x hhigh hx'
    · -- the last entry lies past the range, so it is one of the later ones
      obtain ⟨final, hf, he⟩ := h.exists_last
      dsimp only at hend
      refine hstop final ?_ (by omega)
      obtain ⟨j, hj, rfl⟩ := List.getElem_of_mem hf
      have hij : i < j := by
        by_contra hle
        rcases Nat.eq_or_lt_of_le (not_lt.mp hle) with rfl | hlt'
        · omega
        · have := List.pairwise_iff_getElem.mp h.increasing j i hj hi hlt'
          omega
      rw [List.mem_drop_iff_getElem]
      exact ⟨j - (i + 1), by omega, by congr 1; omega⟩
  · intro hint hhint
    obtain ⟨old, -, rfl⟩ := Option.map_eq_some_iff.mp hhint
    exact ⟨le_rfl, fun _ => hiter⟩

/-- A search from past the map finds nothing. -/
theorem getNextRange_not_found (hlt : cur + 1 < 2 ^ 64) (hge : size ≤ cur) (uState uMask : V) (hh : HintOk map pHint) :
    map.getNextRange ops uBegin uEnd uState uMask pHint = ⟨false, uBegin, cur + 1, uState, pHint⟩ := by
  have hmod : (cur + 1) % 2 ^ 64 = cur + 1 := Nat.mod_eq_of_lt hlt
  have hpos := position_eq_lowerBound h hsize (Nat.succ_pos cur) hh
  have hlen : lowerBound map.partMap (cur + 1) = map.partMap.length := by
    refine List.findIdx_eq_length_of_false fun part hm => ?_
    have := h.le_size hm
    rw [decide_eq_false_iff_not]
    omega
  simp only [CRangeMap.getNextRange, hcur, hmod, hpos, hlen, List.getElem?_eq_none le_rfl]

end

end Next

/-- The states an iterator over a window that is not empty goes through: its
range ends in the window, and the next search starts where it ended. -/
structure Ready {V : Type*} (it : SIterator V) : Prop where
  /-- The window is not empty. -/
  lt : it.uFrom < it.uTo
  /-- The window ends at an offset. -/
  uTo_lt : it.uTo < 2 ^ 64
  /-- The range ends in the window. -/
  uEnd_le : it.uEnd ≤ it.uTo
  /-- The search goes on at the end of the range, first at the window's start. -/
  resume : (if it.uBegin > it.uEnd then it.uBegin else it.uEnd) = max it.uEnd it.uFrom

section Step

variable {V : Type*} {ops : StateOps V} {size : ℕ} {map : CRangeMap V}

/-- A fresh iterator. -/
theorem ready_iterator (ops : StateOps V) {uFrom uTo : ℕ} (hlt : uFrom < uTo)
    (hto : uTo < 2 ^ 64) (bHint : Bool) : Ready (CRangeMap.iterator ops uFrom uTo bHint) where
  lt := hlt
  uTo_lt := hto
  uEnd_le := Nat.zero_le _
  resume := by
    have hb : (CRangeMap.iterator ops uFrom uTo bHint).uBegin = uFrom := rfl
    have he : (CRangeMap.iterator ops uFrom uTo bHint).uEnd = 0 := rfl
    have hf : (CRangeMap.iterator ops uFrom uTo bHint).uFrom = uFrom := rfl
    rw [hb, he, hf]
    split <;> omega

/-- A fresh hint fits every canonical map. -/
theorem hintOk_iterator (h : Canonical ops size map) (uFrom uTo : ℕ) (bHint : Bool) :
    HintOk map (CRangeMap.iterator ops uFrom uTo bHint).pHint := by
  intro hint hh
  rw [CRangeMap.iterator] at hh
  split at hh
  · rw [Option.some.injEq] at hh
    rw [← hh]
    refine ⟨Nat.zero_le _, fun he => ?_⟩
    have hpos := h.revision_pos
    dsimp only at he
    omega
  · cases hh

theorem HintOk.setRange {pHint : Option SIterHint} (hh : HintOk map pHint) (uBegin uEnd : ℕ)
    (uState : V) (eMode : ESet) : HintOk (map.setRange ops uBegin uEnd uState eMode) pHint := by
  intro hint he
  obtain ⟨hle, -⟩ := hh hint he
  rw [revision_setRange]
  exact ⟨by omega, fun heq => by omega⟩

variable {it : SIterator V}

theorem iterateRanges_done (hdone : it.uEnd = it.uTo) (uMask : V) : map.iterateRanges ops it uMask = (false, it) := by
  rw [CRangeMap.iterateRanges, if_pos hdone]

theorem iterateRanges_past (h : Canonical ops size map) (hsize : size < 2 ^ 64) (hr : Ready it)
    (hh : HintOk map it.pHint) (hopen : it.uEnd ≠ it.uTo) (hpast : size ≤ max it.uEnd it.uFrom) (uMask : V) :
    map.iterateRanges ops it uMask = (false, { it with uEnd := max it.uEnd it.uFrom + 1 }) := by
  have hlt := hr.lt
  have hto := hr.uTo_lt
  have hle := hr.uEnd_le
  have hnext := getNextRange_not_found h hsize hr.resume (by omega) hpast it.uState uMask hh
  simp only [CRangeMap.iterateRanges, clip, if_neg hopen, hnext, if_true]

/-- A range found around the offset where the iterator stands is cut off there
and at the end of the window. -/
theorem clip_found {next : NextRange V} (hfound : next.found = true)
    (hbegin : next.uBegin ≤ max it.uEnd it.uFrom) (hin : max it.uEnd it.uFrom < it.uTo) :
    clip it next = (true, ⟨it.uFrom, it.uTo, max it.uEnd it.uFrom, min next.uEnd it.uTo, next.uState, next.pHint⟩) := by
  simp only [clip, hfound, Bool.true_eq_false, if_false]
  split
  · rfl
  · rename_i hge
    have he : next.uBegin = max it.uEnd it.uFrom := by omega
    rw [if_neg (by omega), he]

section

variable (h : Canonical ops size map) (hsize : size < 2 ^ 64) (hr : Ready it) (hh : HintOk map it.pHint)

include h hsize hr hh

/-- In the map a step returns the bytes from where it stands to the first one
with another masked state, the end of the window or the end of the map. -/
theorem iterateRanges_found (hopen : it.uEnd ≠ it.uTo) (hin : max it.uEnd it.uFrom < size) (uMask : V) :
    ∃ next : NextRange V, FoundAt ops size map uMask (max it.uEnd it.uFrom) next ∧ HintOk map next.pHint ∧
      map.iterateRanges ops it uMask =
        (true, ⟨it.uFrom, it.uTo, max it.uEnd it.uFrom, min next.uEnd it.uTo, next.uState, next.pHint⟩) := by
  have hlt := hr.lt
  have hle := hr.uEnd_le
  obtain ⟨hf, hhint⟩ := getNextRange_found h hsize hr.resume hin it.uState uMask hh
  refine ⟨_, hf, hhint, ?_⟩
  rw [CRangeMap.iterateRanges, if_neg hopen]
  exact clip_found hf.found hf.uBegin_le (by omega)

/-- A step leaves the iterator ready for the next one. -/
theorem iterateRanges_ready (uMask : V) :
    Ready (map.iterateRanges ops it uMask).2 ∧ HintOk map (map.iterateRanges ops it uMask).2.pHint := by
  have hlt := hr.lt
  have hto := hr.uTo_lt
  have hle := hr.uEnd_le
  have hresume := hr.resume
  by_cases hopen : it.uEnd = it.uTo
  · rw [iterateRanges_done hopen]
    exact ⟨hr, hh⟩
  · rcases Nat.lt_or_ge (max it.uEnd it.uFrom) size with hin | hpast
    · obtain ⟨next, hf, hhint, he⟩ := iterateRanges_found h hsize hr hh hopen hin uMask
      have hend := hf.lt_uEnd
      rw [he]
      refine ⟨⟨hlt, hto, Nat.min_le_right _ _, ?_⟩, hhint⟩
      dsimp only
      split <;> omega
    · rw [iterateRanges_past h hsize hr hh hopen hpast]
      refine ⟨⟨hlt, hto, ?_, ?_⟩, hh⟩
      · dsimp only
        omega
      · dsimp only at hresume ⊢
        split at hresume <;> split <;> omega

end

end Step

section Collect

variable {V : Type*} (ops : StateOps V)

/-- The calling loop: step until a step returns false, and list the ranges
returned. Without fuel there is no result, nor if a step has none. -/
def collectWith (step : SIterator V → Option (Bool × SIterator V)) : ℕ → SIterator V → Option (List (Span V))
  | 0, _ => none
  | fuel + 1, it =>
    match step it with
    | none => none
    | some (false, _) => some []
    | some (true, it) => (collectWith step fuel it).map (⟨it.uBegin, it.uEnd, it.uState⟩ :: ·)

/-- The calling loop over a map. -/
def collect (map : CRangeMap V) (uMask : V) : ℕ → SIterator V → Option (List (Span V)) :=
  collectWith fun it => some (map.iterateRanges ops it uMask)

variable {ops} {size : ℕ} {map : CRangeMap V}

/-- What a run of the calling loop returns from an offset on. -/
structure Collected (ops : StateOps V) (size : ℕ) (map : CRangeMap V) (uMask : V)
    (cur uTo : ℕ) (ranges : List (Span V)) : Prop where
  /-- In the map the ranges tile what is left of the window. -/
  tiles : cur < size → Tiles cur (min uTo size) ranges
  /-- Past the map there is no range. -/
  past : size ≤ cur → ranges = []
  /-- Every byte of a range has its masked state. -/
  same : ∀ range ∈ ranges, ∀ x, range.Covers x → seen ops map uMask x = some range.value
  /-- The ranges cannot be extended. -/
  distinct : ranges.IsChain fun a b => a.value ≠ b.value

theorem collected_nil (ops : StateOps V) (map : CRangeMap V) (uMask : V) {cur uTo : ℕ}
    (h : cur < size → cur = min uTo size) : Collected ops size map uMask cur uTo [] where
  tiles := h
  past := fun _ => rfl
  same := fun range hm => by cases hm
  distinct := List.IsChain.nil

/-- The calling loop ends and tiles what is left of the window. -/
theorem collect_spec (h : Canonical ops size map) (hsize : size < 2 ^ 64) (uMask : V)
    {it : SIterator V} (hr : Ready it) (hh : HintOk map it.pHint) {fuel : ℕ}
    (hfuel : size - max it.uEnd it.uFrom < fuel) : ∃ ranges, collect ops map uMask fuel it = some ranges ∧
      Collected ops size map uMask (max it.uEnd it.uFrom) it.uTo ranges := by
  induction fuel generalizing it with
  | zero => omega
  | succ fuel ih =>
    have hlt := hr.lt
    have hle := hr.uEnd_le
    by_cases hopen : it.uEnd = it.uTo
    · refine ⟨[], ?_, collected_nil ops map uMask fun hin => by omega⟩
      rw [collect, collectWith, iterateRanges_done hopen]
    · rcases Nat.lt_or_ge (max it.uEnd it.uFrom) size with hin | hpast
      · obtain ⟨next, hf, -, he⟩ := iterateRanges_found h hsize hr hh hopen hin uMask
        obtain ⟨hr', hh'⟩ := iterateRanges_ready h hsize hr hh uMask
        have hend := hf.lt_uEnd
        have hend' := hf.uEnd_le
        rw [he] at hr' hh'
        have hcur : max (min next.uEnd it.uTo) it.uFrom = min next.uEnd it.uTo := by omega
        obtain ⟨ranges, hc, hrest⟩ := ih hr' hh' (by dsimp only; omega)
        dsimp only at hrest
        rw [hcur] at hrest
        rw [collect] at hc ⊢
        refine ⟨_, by rw [collectWith, he]; dsimp only; rw [hc, Option.map_some], ?_, ?_, ?_, ?_⟩
        · intro _
          refine ⟨rfl, by dsimp only; omega, ?_⟩
          dsimp only
          rcases Nat.lt_or_ge (min next.uEnd it.uTo) size with hlt' | hge'
          · exact hrest.tiles hlt'
          · rw [hrest.past hge', Tiles]
            omega
        · intro hge
          omega
        · intro range hm x hx
          rcases List.mem_cons.mp hm with rfl | hm
          · obtain ⟨h1, h2⟩ := hx
            have hb := hf.uBegin_le
            dsimp only at h1 h2
            exact hf.same x (by omega) (by omega)
          · exact hrest.same range hm x hx
        · cases ranges with
          | nil => exact List.IsChain.singleton _
          | cons second ranges =>
            refine List.isChain_cons_cons.mpr ⟨?_, hrest.distinct⟩
            -- the second range starts at the byte where the first one stopped
            have hlt' : min next.uEnd it.uTo < size := by
              by_contra hge
              have := hrest.past (not_lt.mp hge)
              cases this
            obtain ⟨hfirst, hsecond, hrest'⟩ := hrest.tiles hlt'
            have hle' := hrest'.le
            have hstop := hf.stop (by omega)
            have hsame := hrest.same second List.mem_cons_self (min next.uEnd it.uTo) ⟨by omega, by omega⟩
            have hmin : min next.uEnd it.uTo = next.uEnd := by omega
            rw [hmin] at hsame
            rw [hsame, ne_eq, Option.some.injEq] at hstop
            exact fun heq => hstop heq.symm
      · refine ⟨[], ?_, collected_nil ops map uMask fun hin => by omega⟩
        rw [collect, collectWith, iterateRanges_past h hsize hr hh hopen hpast]

/-- The calling loop with a fresh iterator. -/
theorem collect_iterator (h : Canonical ops size map) (hsize : size < 2 ^ 64) {uFrom uTo : ℕ}
    (hlt : uFrom < uTo) (hto : uTo < 2 ^ 64) (uMask : V) (bHint : Bool) :
    ∃ ranges, collect ops map uMask (size + 1) (CRangeMap.iterator ops uFrom uTo bHint) = some ranges ∧
      Collected ops size map uMask uFrom uTo ranges := by
  have hcur : max (CRangeMap.iterator ops uFrom uTo bHint).uEnd
      (CRangeMap.iterator ops uFrom uTo bHint).uFrom = uFrom := Nat.zero_max uFrom
  have hfuel : size - max (CRangeMap.iterator ops uFrom uTo bHint).uEnd
      (CRangeMap.iterator ops uFrom uTo bHint).uFrom < size + 1 := by omega
  obtain ⟨ranges, hc, hspec⟩ := collect_spec h hsize uMask (ready_iterator ops hlt hto bHint)
    (hintOk_iterator h uFrom uTo bHint) hfuel
  rw [hcur] at hspec
  exact ⟨ranges, hc, hspec⟩

variable (ops) in
/-- The ranges a loop over a window visits, if its body leaves the map alone.
The fuel is never used up on a canonical map. -/
def rangesOf (map : CRangeMap V) (uFrom uTo : ℕ) (uMask : V) : List (Span V) :=
  (collect ops map uMask (map.getSize + 1) (CRangeMap.iterator ops uFrom uTo true)).getD []

theorem rangesOf_collected (h : Canonical ops size map) (hsize : size < 2 ^ 64) {uFrom uTo : ℕ}
    (hlt : uFrom < uTo) (hto : uTo < 2 ^ 64) (uMask : V) :
    Collected ops size map uMask uFrom uTo (rangesOf ops map uFrom uTo uMask) := by
  obtain ⟨ranges, hc, hspec⟩ := collect_iterator h hsize hlt hto uMask true
  rw [rangesOf, h.getSize, hc, Option.getD_some]
  exact hspec

end Collect

/-- What a caller does with a map and an iterator over it. -/
inductive Event (V : Type*) where
  /-- Set a range of the map. -/
  | set (call : SetCall V)
  /-- Step the iterator with a mask. -/
  | step (uMask : V)

section Interleaving

variable {V : Type*} (ops : StateOps V)

/-- The results of the steps: the return value and the range. -/
def runEvents : CRangeMap V → SIterator V → List (Event V) → List (Bool × Span V)
  | _, _, [] => []
  | map, it, Event.set call :: rest =>
    runEvents (map.setRange ops call.uBegin call.uEnd call.uState call.eMode) it rest
  | map, it, Event.step uMask :: rest =>
    let result := map.iterateRanges ops it uMask
    (result.1, ⟨result.2.uBegin, result.2.uEnd, result.2.uState⟩) :: runEvents map result.2 rest

/-- The updates among the events stay in the map. -/
def EventsInRange (size : ℕ) (events : List (Event V)) : Prop :=
  ∀ call, Event.set call ∈ events → call.InRange size

variable {ops} {size : ℕ} {map : CRangeMap V}

/-- Two iterators that differ at most in their hints. -/
def SameRange (it it' : SIterator V) : Prop := { it with pHint := none } = { it' with pHint := none }

section

variable (h : Canonical ops size map) (hsize : size < 2 ^ 64)

include h hsize

theorem getNextRange_hint {uBegin uEnd : ℕ}
    (hlt : (if uBegin > uEnd then uBegin else uEnd) + 1 < 2 ^ 64) (uState uMask : V)
    {pHint pHint' : Option SIterHint} (hh : HintOk map pHint) (hh' : HintOk map pHint') :
    { map.getNextRange ops uBegin uEnd uState uMask pHint with pHint := none } =
      { map.getNextRange ops uBegin uEnd uState uMask pHint' with pHint := none } := by
  have hmod := Nat.mod_eq_of_lt hlt
  simp only [CRangeMap.getNextRange, hmod, position_eq_lowerBound h hsize (Nat.succ_pos _) hh,
    position_eq_lowerBound h hsize (Nat.succ_pos _) hh']
  split <;> rfl

/-- Valid hints do not change what a step returns. -/
theorem iterateRanges_hint {it it' : SIterator V} (hr : Ready it) (hsame : SameRange it it') (hh : HintOk map it.pHint)
    (hh' : HintOk map it'.pHint) (uMask : V) :
    (map.iterateRanges ops it uMask).1 = (map.iterateRanges ops it' uMask).1 ∧
      SameRange (map.iterateRanges ops it uMask).2 (map.iterateRanges ops it' uMask).2 := by
  obtain ⟨uFrom, uTo, uBegin, uEnd, uState, pHint⟩ := it
  obtain ⟨uFrom', uTo', uBegin', uEnd', uState', pHint'⟩ := it'
  simp only [SameRange, SIterator.mk.injEq, and_true] at hsame
  obtain ⟨rfl, rfl, rfl, rfl, rfl⟩ := hsame
  by_cases hopen : uEnd = uTo
  · rw [iterateRanges_done hopen, iterateRanges_done hopen]
    exact ⟨rfl, rfl⟩
  · have hlt := hr.lt
    have hto := hr.uTo_lt
    have hle := hr.uEnd_le
    have hresume := hr.resume
    dsimp only at hlt hto hle hresume
    have hcur : (if uBegin > uEnd then uBegin else uEnd) + 1 < 2 ^ 64 := by omega
    have hnext := getNextRange_hint h hsize hcur uState uMask hh hh'
    dsimp only at hnext
    rw [NextRange.mk.injEq] at hnext
    obtain ⟨h1, h2, h3, h4, -⟩ := hnext
    simp only [CRangeMap.iterateRanges, clip, if_neg hopen, SameRange, h1, h2, h3, h4]
    split
    · exact ⟨rfl, rfl⟩
    · split
      · exact ⟨rfl, rfl⟩
      · split <;> exact ⟨rfl, rfl⟩

/-- Over any order of updates and steps, two iterators that differ in valid
hints only return the same ranges. -/
theorem runEvents_hint {events : List (Event V)} (hevents : EventsInRange size events) {it it' : SIterator V}
    (hr : Ready it) (hr' : Ready it') (hsame : SameRange it it') (hh : HintOk map it.pHint)
    (hh' : HintOk map it'.pHint) : runEvents ops map it events = runEvents ops map it' events := by
  induction events generalizing map it it' with
  | nil => rfl
  | cons event rest ih =>
    have hrest : EventsInRange size rest := fun call hm => hevents call (List.mem_cons_of_mem _ hm)
    cases event with
    | set call =>
      obtain ⟨hbe, hend⟩ := hevents call List.mem_cons_self
      exact ih (setRange_canonical h hsize hbe hend _ _) hrest hr hr' hsame (hh.setRange _ _ _ _) (hh'.setRange _ _ _ _)
    | step uMask =>
      obtain ⟨hfound, hsame'⟩ := iterateRanges_hint h hsize hr hsame hh hh' uMask
      obtain ⟨hready, hhint⟩ := iterateRanges_ready h hsize hr hh uMask
      obtain ⟨hready', hhint'⟩ := iterateRanges_ready h hsize hr' hh' uMask
      have hfields := hsame'
      rw [SameRange, SIterator.mk.injEq] at hfields
      obtain ⟨-, -, hb, he, hs, -⟩ := hfields
      rw [runEvents, runEvents, hfound, hb, he, hs, ih h hrest hready hready' hsame' hhint hhint']

end

/-- For every window that is not empty or reversed: the calling loop ends,
tiles the part of the window that lies in the map, gives each range the masked
state that `GetRange` gives each of its bytes, and no two neighbouring ranges
the same state; and whatever updates come between the steps, each step returns
what a step without a hint returns. -/
theorem iterateRanges_tiles (hreach : Reachable ops size map) {uFrom uTo : ℕ} (hlt : uFrom < uTo) (hto : uTo < 2 ^ 64) :
    (∀ (uMask : V) (bHint : Bool), ∃ ranges,
      collect ops map uMask (size + 1) (CRangeMap.iterator ops uFrom uTo bHint) = some ranges ∧
      (uFrom < size → Tiles uFrom (min uTo size) ranges) ∧
      (size ≤ uFrom → ranges = []) ∧
      (∀ range ∈ ranges, ∀ x, range.Covers x → map.getRange ops x (x + 1) EMerge.eInter uMask = range.value) ∧
      ranges.IsChain fun a b => a.value ≠ b.value) ∧
    ∀ events : List (Event V), EventsInRange size events →
      runEvents ops map (CRangeMap.iterator ops uFrom uTo true) events =
        runEvents ops map (CRangeMap.iterator ops uFrom uTo false) events := by
  obtain ⟨h, hsize⟩ := hreach.canonical
  constructor
  · intro uMask bHint
    obtain ⟨ranges, hc, hspec⟩ := collect_iterator h hsize hlt hto uMask bHint
    refine ⟨ranges, hc, hspec.tiles, hspec.past, fun range hm x hx => ?_, hspec.distinct⟩
    have hseen := hspec.same range hm x hx
    rw [seen, Option.map_eq_some_iff] at hseen
    obtain ⟨v, hv, hm'⟩ := hseen
    obtain ⟨part, hp, hxp, -⟩ := exists_of_valueAt hv
    have hxs : x < size := lt_of_lt_of_le hxp (h.le_size hp)
    rw [getRange_byte h hsize EMerge.eInter uMask hxs hv, hm']
  · intro events hevents
    exact runEvents_hint h hsize hevents (ready_iterator ops hlt hto true)
      (ready_iterator ops hlt hto false) rfl (hintOk_iterator h uFrom uTo true)
      (hintOk_iterator h uFrom uTo false)

/-- A window over the end of a map with one range set. -/
theorem iterateRanges_tiles_ten : (∀ (uMask : BitVec 16) (bHint : Bool), ∃ ranges,
      collect (valueMapOps 16) ((CRangeMap.create (valueMapOps 16) 10).setRange (valueMapOps 16)
        2 5 3 ESet.eSet) uMask (10 + 1) (CRangeMap.iterator (valueMapOps 16) 3 20 bHint) = some ranges ∧
      (3 < 10 → Tiles 3 (min 20 10) ranges) ∧
      (10 ≤ 3 → ranges = []) ∧
      (∀ range ∈ ranges, ∀ x, range.Covers x → ((CRangeMap.create (valueMapOps 16) 10).setRange (valueMapOps 16) 2 5 3
          ESet.eSet).getRange (valueMapOps 16) x (x + 1) EMerge.eInter uMask = range.value) ∧
      ranges.IsChain fun a b => a.value ≠ b.value) ∧
    ∀ events : List (Event (BitVec 16)), EventsInRange 10 events →
      runEvents (valueMapOps 16) ((CRangeMap.create (valueMapOps 16) 10).setRange
        (valueMapOps 16) 2 5 3 ESet.eSet) (CRangeMap.iterator (valueMapOps 16) 3 20 true) events =
      runEvents (valueMapOps 16) ((CRangeMap.create (valueMapOps 16) 10).setRange
        (valueMapOps 16) 2 5 3 ESet.eSet) (CRangeMap.iterator (valueMapOps 16) 3 20 false)
          events :=
  iterateRanges_tiles (Reachable.setRange ⟨2, 5, 3, ESet.eSet⟩ (Reachable.create (by decide) (by decide)) (by decide))
    (by decide) (by decide)

/-- An empty window inside the map yields one empty range. -/
theorem iterateRanges_empty_window :
    ∃ ranges, collect (valueMapOps 16) (CRangeMap.create (valueMapOps 16) 10) 0 (10 + 1)
      (CRangeMap.iterator (valueMapOps 16) 5 5 true) = some ranges ∧
      ¬Tiles 5 (min 5 10) ranges :=
  ⟨[⟨5, 5, 0⟩], by decide, by decide⟩

end Interleaving

end NeoLoader.RangeMap
