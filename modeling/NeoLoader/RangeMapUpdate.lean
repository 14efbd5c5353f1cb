import NeoLoader.RangeMap

/-!
# Updates of the range map

`SetRange` is a cut at both ends, an update of the entries in between and a
clean-up in a window. On a canonical map the window is wide enough, so the
result is the same step function with the update applied to the bytes of the
range, and it is canonical again. A run of calls therefore agrees with a
plain array of bytes.
-/

namespace NeoLoader.RangeMap

open StepFunction

section Positions

variable {V : Type*}

theorem lowerBound_cons (part : ℕ × V) (rest : List (ℕ × V)) (key : ℕ) :
    lowerBound (part :: rest) key = if key ≤ part.1 then 0 else lowerBound rest key + 1 := by
  simp only [lowerBound, List.findIdx_cons]
  by_cases h : key ≤ part.1
  · simp only [h, decide_true, cond_true, if_true]
  · simp only [h, decide_false, cond_false, if_false]

variable {partMap : List (ℕ × V)} {part : ℕ × V}

theorem lowerBound_lt_length {key : ℕ}
    (hm : part ∈ partMap) (hk : key ≤ part.1) : lowerBound partMap key < partMap.length := by
  refine List.findIdx_lt_length_of_exists ⟨part, hm, ?_⟩
  simpa only [decide_eq_true_eq] using hk

theorem le_getElem_lowerBound {key : ℕ} (h : lowerBound partMap key < partMap.length) :
    key ≤ (partMap[lowerBound partMap key]).1 := by
  have hp := List.findIdx_getElem (w := h)
  rw [decide_eq_true_eq] at hp
  exact hp

theorem getElem_lt_of_lt_lowerBound {key i : ℕ}
    (h : i < lowerBound partMap key) (hi : i < partMap.length) : (partMap[i]).1 < key := by
  have hp := List.not_of_lt_findIdx h
  simpa only [decide_eq_false_iff_not, not_le] using hp

/-- On increasing keys the position found separates the keys below the given
one from the others. -/
theorem lowerBound_le_iff (h : Increasing partMap) {key i : ℕ}
    (hi : i < partMap.length) : lowerBound partMap key ≤ i ↔ key ≤ (partMap[i]).1 := by
  constructor
  · intro hle
    have hlen : lowerBound partMap key < partMap.length := by omega
    have hk := le_getElem_lowerBound hlen
    rcases Nat.eq_or_lt_of_le hle with he | hlt
    · simpa only [he] using hk
    · have hlt' := List.pairwise_iff_getElem.mp h _ _ hlen hi hlt
      omega
  · intro hk
    by_contra hlt
    have := getElem_lt_of_lt_lowerBound (not_le.mp hlt) hi
    omega

/-- On increasing keys a present key is found at its own entry. -/
theorem getElem_lowerBound_of_key (h : Increasing partMap) (hm : part ∈ partMap) :
    ∃ hlt : lowerBound partMap part.1 < partMap.length, (partMap[lowerBound partMap part.1]) = part := by
  obtain ⟨i, hi, he⟩ := List.getElem_of_mem hm
  have hle : lowerBound partMap part.1 ≤ i := (lowerBound_le_iff h hi).mpr (by rw [he])
  have hlen : lowerBound partMap part.1 < partMap.length := by omega
  refine ⟨hlen, ?_⟩
  have hk := le_getElem_lowerBound hlen
  rcases Nat.eq_or_lt_of_le hle with heq | hlt
  · simpa only [heq] using he
  · have hlt' := List.pairwise_iff_getElem.mp h _ _ hlen hi hlt
    rw [he] at hlt'
    omega

theorem lowerBound_eq_of_keys {partMap partMap' : List (ℕ × V)}
    (h : partMap.map Prod.fst = partMap'.map Prod.fst) (key : ℕ) :
    lowerBound partMap key = lowerBound partMap' key := by
  have hkeys : ∀ l : List (ℕ × V), lowerBound l key = (l.map Prod.fst).findIdx fun k => key ≤ k := fun l => by
    rw [List.findIdx_map]
    rfl
  rw [hkeys, hkeys, h]

theorem take_lowerBound (partMap : List (ℕ × V)) (key : ℕ) :
    partMap.take (lowerBound partMap key) = partMap.takeWhile fun part => part.1 < key := by
  rw [List.takeWhile_eq_take_findIdx_not, lowerBound]
  congr 2
  funext part
  rw [← decide_not, decide_eq_decide, not_lt]

/-- The entries after the position of a present key. -/
theorem drop_lowerBound (h : Increasing partMap) (hm : part ∈ partMap) :
    partMap.drop (lowerBound partMap part.1 + 1) = partMap.dropWhile fun other => other.1 ≤ part.1 := by
  induction partMap with
  | nil => cases hm
  | cons c rest ih =>
    obtain ⟨hc, ht⟩ := List.pairwise_cons.mp h
    have hskip : c.1 ≤ part.1 → (c :: rest).dropWhile (fun other => other.1 ≤ part.1) =
        rest.dropWhile fun other => other.1 ≤ part.1 :=
      fun hle => List.dropWhile_cons_of_pos (decide_eq_true hle)
    rw [lowerBound_cons]
    rcases List.mem_cons.mp hm with rfl | hm
    · rw [if_pos le_rfl, hskip le_rfl, Nat.zero_add, List.drop_one, List.tail_cons]
      cases rest with
      | nil => rfl
      | cons d rest =>
        have hd : part.1 < d.1 := hc d List.mem_cons_self
        rw [List.dropWhile_cons_of_neg]
        rw [decide_eq_true_eq]
        exact not_le.mpr hd
    · have hlt := hc part hm
      rw [if_neg (not_le.mpr hlt), hskip hlt.le, List.drop_succ_cons]
      exact ih ht hm

end Positions

section Loops

variable {V : Type*} {partMap : List (ℕ × V)}

theorem splitRange_eq_cut {key : ℕ} {part : ℕ × V} (hm : part ∈ partMap) (hk : key ≤ part.1) :
    splitRange partMap key = some (cut partMap key) := by
  induction partMap with
  | nil => cases hm
  | cons c rest ih =>
    by_cases hc : key ≤ c.1
    · have hpos : lowerBound (c :: rest) key = 0 := by rw [lowerBound_cons, if_pos hc]
      simp only [splitRange, hpos, List.getElem?_cons_zero, cut, if_pos hc, qmapInsert, if_neg (not_lt.mpr hc)]
      by_cases he : c.1 = key
      · simp only [he, ne_eq, not_true_eq_false, if_false, if_true]
      · simp only [he, ne_eq, not_false_eq_true, if_false, if_true]
    · have hpos : lowerBound (c :: rest) key = lowerBound rest key + 1 := by
        rw [lowerBound_cons, if_neg hc]
      have hrest : part ∈ rest := by
        rcases List.mem_cons.mp hm with rfl | hm
        · exact absurd hk hc
        · exact hm
      have hi := ih hrest
      have hlt : c.1 < key := not_le.mp hc
      simp only [splitRange, hpos, List.getElem?_cons_succ, cut, if_neg hc, qmapInsert, if_pos hlt] at hi ⊢
      cases hg : rest[lowerBound rest key]? with
      | none =>
        rw [hg] at hi
        cases hi
      | some found =>
        rw [hg] at hi
        simp only [Option.some.injEq] at hi ⊢
        rw [← hi]
        split <;> rfl

theorem splitRange_eq_none {key : ℕ} (h : ∀ part ∈ partMap, part.1 < key) : splitRange partMap key = none := by
  have hlen : lowerBound partMap key = partMap.length := by
    refine List.findIdx_eq_length_of_false fun part hm => ?_
    simpa only [decide_eq_false_iff_not, not_le] using h part hm
  rw [splitRange, hlen, List.getElem?_eq_none le_rfl]

/-- What the update loop leaves at each position. -/
theorem getElem?_updateDown (f : V → V) (first count : ℕ) (partMap : List (ℕ × V)) (i : ℕ) :
    (updateDown f first count partMap)[i]? =
      if first < i ∧ i ≤ first + count then partMap[i]?.map fun part => (part.1, f part.2)
      else partMap[i]? := by
  induction count generalizing partMap with
  | zero =>
    rw [updateDown, if_neg (by omega)]
  | succ count ih =>
    rw [updateDown, ih, List.getElem?_modify]
    by_cases hi : first + (count + 1) = i
    · rw [if_neg (by omega), if_pos (by omega)]
      simp only [hi, if_true, Option.map_eq_map]
    · by_cases hin : first < i ∧ i ≤ first + count
      · rw [if_pos hin, if_pos (by omega)]
        simp only [hi, if_false, Option.map_eq_map, Option.map_id']
      · rw [if_neg hin, if_neg (by omega)]
        simp only [hi, if_false, Option.map_eq_map, Option.map_id']

/-- Between two entries of increasing keys, the update loop updates the
entries with the keys in between. -/
theorem updateDown_eq_updateBetween (h : Increasing partMap)
    (f : V → V) {a b : ℕ × V} (ha : a ∈ partMap) (hb : b ∈ partMap) (hab : a.1 ≤ b.1) :
    updateDown f (lowerBound partMap a.1) (lowerBound partMap b.1 - lowerBound partMap a.1)
      partMap = updateBetween f a.1 b.1 partMap := by
  obtain ⟨hla, hea⟩ := getElem_lowerBound_of_key h ha
  obtain ⟨hlb, heb⟩ := getElem_lowerBound_of_key h hb
  have hle : lowerBound partMap a.1 ≤ lowerBound partMap b.1 := by
    rw [lowerBound_le_iff h hlb, heb]
    exact hab
  apply List.ext_getElem?
  intro i
  rw [getElem?_updateDown, updateBetween, List.getElem?_map]
  by_cases hi : i < partMap.length
  · rw [List.getElem?_eq_getElem hi, Option.map_some, Option.map_some]
    have hfirst : lowerBound partMap a.1 < i ↔ a.1 < (partMap[i]).1 := by
      constructor
      · intro hlt
        have := List.pairwise_iff_getElem.mp h _ _ hla hi hlt
        rwa [hea] at this
      · intro hlt
        have hle : lowerBound partMap a.1 ≤ i := (lowerBound_le_iff h hi).mpr hlt.le
        rcases Nat.eq_or_lt_of_le hle with he | hlt'
        · simp only [← he, hea, lt_irrefl] at hlt
        · exact hlt'
    have hlast : i ≤ lowerBound partMap b.1 ↔ (partMap[i]).1 ≤ b.1 := by
      constructor
      · intro hle'
        rcases Nat.eq_or_lt_of_le hle' with he | hlt
        · simp only [he, heb, le_refl]
        · exact (getElem_lt_of_lt_lowerBound hlt hi).le
      · intro hle'
        by_contra hlt
        have := List.pairwise_iff_getElem.mp h _ _ hlb hi (not_le.mp hlt)
        rw [heb] at this
        omega
    have hcond : (lowerBound partMap a.1 < i ∧
        i ≤ lowerBound partMap a.1 + (lowerBound partMap b.1 - lowerBound partMap a.1)) ↔
        (a.1 < (partMap[i]).1 ∧ (partMap[i]).1 ≤ b.1) := by
      rw [← hfirst, ← hlast]
      omega
    by_cases hin : a.1 < (partMap[i]).1 ∧ (partMap[i]).1 ≤ b.1
    · rw [if_pos (hcond.mpr hin), if_pos hin]
    · rw [if_neg (fun h => hin (hcond.mp h)), if_neg hin]
  · rw [List.getElem?_eq_none (not_lt.mp hi), Option.map_none, Option.map_none, ite_self]

theorem clearLoop_eq_fuse (matchState : V → V → Bool) (partMap : List (ℕ × V)) :
    clearLoop matchState partMap = fuse matchState (fun key => key == 0) partMap := by
  induction partMap with
  | nil => rfl
  | cons a rest ih =>
    cases rest with
    | nil => rfl
    | cons b rest => rw [clearLoop, fuse, ih]

/-- An entry that the clean-up may drop stands before no other entry. -/
abbrev Clean (matchState : V → V → Bool) (partMap : List (ℕ × V)) : Prop :=
  partMap.IsChain (fun a b => (matchState a.2 b.2 || a.1 == 0) = false)

/-- The window of the clean-up is wide enough if the map is clean before its
first position and after its last one. -/
theorem clearDuplicates_eq_fuse (matchState : V → V → Bool)
    {first last : ℕ} (hfl : first ≤ last) (hlast : last < partMap.length)
    (hfront : Clean matchState (partMap.take first)) (hback : Clean matchState (partMap.drop (last + 1))) :
    clearDuplicates matchState partMap first last = fuse matchState (fun key => key == 0) partMap := by
  obtain ⟨start, hstart, hstart'⟩ : ∃ start, (if first = 0 then first else first - 1) = start ∧
        (start = 0 ∧ first = 0 ∨ first = start + 1) := by
    split
    · exact ⟨first, rfl, Or.inl ⟨‹_›, ‹_›⟩⟩
    · exact ⟨first - 1, rfl, Or.inr (by omega)⟩
  obtain ⟨final, hfinal, hfinal'⟩ : ∃ final, (if last + 1 = partMap.length then last + 1 else last + 2) = final + 1 ∧
        (final = last ∧ last + 1 = partMap.length ∨ final = last + 1 ∧ last + 1 < partMap.length) := by
    split
    · exact ⟨last, rfl, Or.inl ⟨rfl, ‹_›⟩⟩
    · exact ⟨last + 1, rfl, Or.inr ⟨rfl, by omega⟩⟩
  have hsf : start ≤ final := by omega
  have hlen : final < partMap.length := by omega
  have hslen : start < partMap.length := by omega
  rw [clearDuplicates, hstart, hfinal, clearLoop_eq_fuse]
  have hparts : partMap = partMap.take start ++ (partMap.take (final + 1)).drop start ++ partMap.drop (final + 1) := by
    have htake : partMap.take start = (partMap.take (final + 1)).take start := by
      rw [List.take_take, min_eq_left (by omega)]
    rw [htake, List.take_append_drop, List.take_append_drop]
  have ha : (partMap.take (final + 1)).drop start = partMap[start] :: (partMap.take (final + 1)).drop (start + 1) := by
    rw [List.drop_eq_getElem_cons (by rw [List.length_take]; omega), List.getElem_take]
  have hb : (partMap.take (final + 1)).drop start = (partMap.take final).drop start ++ [partMap[final]] := by
    rw [List.take_succ_eq_append_getElem hlen, List.drop_append_of_le_length]
    rw [List.length_take]
    omega
  have hfront' : Clean matchState (partMap.take start ++ [partMap[start]]) := by
    rw [← List.take_succ_eq_append_getElem hslen]
    rcases hstart' with ⟨h0, -⟩ | h1
    · subst h0
      rw [List.take_succ_eq_append_getElem hslen]
      exact List.IsChain.singleton _
    · rw [← h1]
      exact hfront
  have hback' : Clean matchState (partMap[final] :: partMap.drop (final + 1)) := by
    rw [← List.drop_eq_getElem_cons hlen]
    rcases hfinal' with ⟨he, hend⟩ | ⟨he, -⟩
    · rw [List.drop_eq_getElem_cons hlen, List.drop_of_length_le (by omega)]
      exact List.IsChain.singleton _
    · rw [he]
      exact hback
  have hwindow := fuse_window matchState (fun key => key == 0) ha hb hfront' hback'
  rw [← hparts] at hwindow
  exact hwindow.symm

end Loops

/-- The states of `CRangeMap` that its own functions keep: increasing keys up
to the size, no range that ends at zero, and no two neighbours that match. No
fresh hint has the revision of such a map. -/
structure Canonical {V : Type*} (ops : StateOps V) (size : ℕ) (map : CRangeMap V) : Prop where
  /-- The keys strictly increase. -/
  increasing : Increasing map.partMap
  /-- The last key is the size. -/
  last : map.partMap.getLast?.map Prod.fst = some size
  /-- No range ends at zero. -/
  positive : ∀ part ∈ map.partMap, 0 < part.1
  /-- Neighbouring ranges have different states. -/
  distinct : map.partMap.IsChain fun a b => ops.matchState a.2 b.2 = false
  /-- The states are ones a map can hold. -/
  stored : ∀ part ∈ map.partMap, ops.Stored part.2
  /-- The revision counts from one. -/
  revision_pos : 0 < map.revision

/-- The arguments of one `SetRange` call. -/
structure SetCall (V : Type*) where
  /-- First offset to set. -/
  uBegin : ℕ
  /-- First offset after the range. -/
  uEnd : ℕ
  /-- State to set, add or clear. -/
  uState : V
  /-- The mode. -/
  eMode : ESet

/-- The range of a call is not empty and lies in the map. -/
def SetCall.InRange {V : Type*} (size : ℕ) (call : SetCall V) : Prop :=
  call.uBegin < call.uEnd ∧ call.uEnd ≤ size

instance {V : Type*} (size : ℕ) (call : SetCall V) : Decidable (call.InRange size) :=
  inferInstanceAs (Decidable (_ ∧ _))

section Update

variable {V : Type*} (ops : StateOps V)

/-- A run of `SetRange` calls. -/
def setRanges (map : CRangeMap V) (calls : List (SetCall V)) : CRangeMap V :=
  calls.foldl (fun map call => map.setRange ops call.uBegin call.uEnd call.uState call.eMode) map

/-- One call on a plain array of bytes. -/
def setBytes (bytes : ℕ → V) (call : SetCall V) : ℕ → V := fun x =>
  if call.uBegin ≤ x ∧ x < call.uEnd then ops.makeState (bytes x) call.uState call.eMode
  else bytes x

/-- A run of calls on a plain array that starts with the default value. -/
def bytesAfter (calls : List (SetCall V)) : ℕ → V :=
  calls.foldl (setBytes ops) fun _ => ops.default

variable {ops} {size : ℕ} {map : CRangeMap V}

section

variable (h : Canonical ops size map)

include h

theorem Canonical.exists_last : ∃ part ∈ map.partMap, part.1 = size := by
  have hl := h.last
  rw [Option.map_eq_some_iff] at hl
  obtain ⟨part, hp, he⟩ := hl
  exact ⟨part, List.mem_of_getLast? hp, he⟩

/-- No key lies past the size. -/
theorem Canonical.le_size {part : ℕ × V} (hm : part ∈ map.partMap) : part.1 ≤ size := by
  have hl := h.last
  rw [Option.map_eq_some_iff] at hl
  obtain ⟨last, hp, rfl⟩ := hl
  obtain ⟨front, hf⟩ := List.getLast?_eq_some_iff.mp hp
  have hinc := h.increasing
  rw [hf] at hm hinc
  rcases List.mem_append.mp hm with hm | hm
  · exact ((List.pairwise_append.mp hinc).2.2 part hm last (List.mem_singleton_self last)).le
  · rw [List.mem_singleton.mp hm]

theorem Canonical.getSize : map.getSize = size := by
  rw [CRangeMap.getSize, h.last, Option.getD_some]

theorem Canonical.clean : Clean ops.matchState map.partMap := by
  refine h.distinct.imp_of_mem_imp fun a b ha _ hab => ?_
  have hpos := h.positive a ha
  rw [hab, Bool.false_or, beq_eq_false_iff_ne]
  omega

end

/-- A fresh map is canonical. -/
theorem canonical_create (ops : StateOps V) (hsize : 0 < size) : Canonical ops size (CRangeMap.create ops size) where
  increasing := List.pairwise_singleton _ _
  last := rfl
  positive := fun part hm => by
    rw [List.mem_singleton.mp hm]
    exact hsize
  distinct := List.IsChain.singleton _
  stored := fun part hm => by
    rw [List.mem_singleton.mp hm]
    exact ops.stored_default
  revision_pos := Nat.one_pos

/-- On a canonical map `SetRange` cuts at both ends, updates the entries in
between and drops what became redundant. -/
theorem setRange_partMap (h : Canonical ops size map) (hsize : size < 2 ^ 64) {uBegin uEnd : ℕ}
    (hbe : uBegin ≤ uEnd) (hend : uEnd ≤ size) (uState : V) (eMode : ESet) :
    (map.setRange ops uBegin uEnd uState eMode).partMap = fuse ops.matchState (fun key => key == 0)
        (updateBetween (fun v => ops.makeState v uState eMode) uBegin uEnd (cut (cut map.partMap uEnd) uBegin)) := by
  have harg : (if uEnd = minusOne then map.getSize else uEnd) = uEnd := by
    rw [h.getSize, minusOne]
    split <;> omega
  obtain ⟨final, hfinal, hsz⟩ := h.exists_last
  have hfinal' : final ∈ cut map.partMap uEnd := mem_cut_of_mem hfinal
  have hsplit : splitRange map.partMap uEnd = some (cut map.partMap uEnd) :=
    splitRange_eq_cut hfinal (by omega)
  have hsplit' : splitRange (cut map.partMap uEnd) uBegin =
      some (cut (cut map.partMap uEnd) uBegin) := splitRange_eq_cut hfinal' (by omega)
  obtain ⟨first, hfirst, rfl⟩ : ∃ first ∈ cut (cut map.partMap uEnd) uBegin, first.1 = uBegin :=
    exists_key_cut hfinal' (by omega)
  obtain ⟨last, hlast', rfl⟩ : ∃ last ∈ cut map.partMap uEnd, last.1 = uEnd :=
    exists_key_cut hfinal (by omega)
  have hlast : last ∈ cut (cut map.partMap last.1) first.1 := mem_cut_of_mem hlast'
  have hinc := increasing_cut (increasing_cut h.increasing last.1) first.1
  simp only [CRangeMap.setRange, harg, hsplit, hsplit']
  rw [updateDown_eq_updateBetween hinc _ hfirst hlast hbe]
  generalize hcells : cut (cut map.partMap last.1) first.1 = cells at *
  generalize hf : (fun v => ops.makeState v uState eMode) = f
  have hkeys := lowerBound_eq_of_keys (map_fst_updateBetween f first.1 last.1 cells)
  have hinc' := increasing_updateBetween hinc f first.1 last.1
  obtain ⟨hll, hle⟩ := getElem_lowerBound_of_key hinc hlast
  have hfl : lowerBound cells first.1 ≤ lowerBound cells last.1 := by
    rw [lowerBound_le_iff hinc hll, hle]
    exact hbe
  apply clearDuplicates_eq_fuse _ hfl
  · rw [updateBetween, List.length_map]
    exact hll
  · -- below the first end nothing was cut or updated
    rw [← hkeys, take_lowerBound, takeWhile_updateBetween f le_rfl, ← hcells,
      takeWhile_cut _ le_rfl, takeWhile_cut _ hbe]
    exact h.clean.prefix (List.takeWhile_prefix _)
  · -- above the last end nothing was cut or updated
    obtain ⟨last', hm, hk⟩ : ∃ last' ∈ updateBetween f first.1 last.1 cells, last'.1 = last.1 := by
      have hm : last.1 ∈ (updateBetween f first.1 last.1 cells).map Prod.fst := by
        rw [map_fst_updateBetween]
        exact List.mem_map_of_mem hlast
      exact List.mem_map.mp hm
    have hdrop := drop_lowerBound hinc' hm
    rw [hk] at hdrop
    rw [← hkeys, hdrop, dropWhile_updateBetween hinc, ← hcells, dropWhile_cut _ hbe, dropWhile_cut _ le_rfl]
    exact h.clean.suffix (List.dropWhile_suffix _)

theorem revision_setRange (map : CRangeMap V) (uBegin uEnd : ℕ) (uState : V) (eMode : ESet) :
    (map.setRange ops uBegin uEnd uState eMode).revision = map.revision + 1 := by
  rw [CRangeMap.setRange]
  dsimp only
  split
  · rfl
  · split <;> rfl

/-- The states before the clean-up are ones a map can hold. -/
theorem stored_updateBetween (h : Canonical ops size map) (uBegin uEnd a b : ℕ) (uState : V)
    (eMode : ESet) : ∀ part ∈ updateBetween (fun v => ops.makeState v uState eMode) a b
      (cut (cut map.partMap uEnd) uBegin), ops.Stored part.2 := by
  have hcut : ∀ cells : List (ℕ × V), (∀ part ∈ cells, ops.Stored part.2) → ∀ k : ℕ,
      ∀ part ∈ cut cells k, ops.Stored part.2 := by
    intro cells hs k part hm
    rcases mem_cut hm with hm | ⟨-, old, ho, -, he⟩
    · exact hs part hm
    · rw [← he]
      exact hs old ho
  have hs := hcut _ (hcut _ h.stored uEnd) uBegin
  intro part hm
  obtain ⟨old, ho, rfl⟩ := List.mem_map.mp hm
  split
  · exact ops.stored_makeState (hs old ho) uState eMode
  · exact hs old ho

section

variable (h : Canonical ops size map) (hsize : size < 2 ^ 64) {uBegin uEnd : ℕ}

include h hsize

/-- `SetRange` keeps a map canonical, also with an empty range. -/
theorem setRange_canonical_of_le (hbe : uBegin ≤ uEnd) (hend : uEnd ≤ size) (uState : V) (eMode : ESet) :
    Canonical ops size (map.setRange ops uBegin uEnd uState eMode) := by
  have hinc := increasing_updateBetween (increasing_cut (increasing_cut h.increasing uEnd) uBegin)
    (fun v => ops.makeState v uState eMode) uBegin uEnd
  have hstored := stored_updateBetween h uBegin uEnd uBegin uEnd uState eMode
  have hlast : (updateBetween (fun v => ops.makeState v uState eMode) uBegin uEnd
      (cut (cut map.partMap uEnd) uBegin)).getLast?.map Prod.fst = some size := by
    rw [← List.getLast?_map, map_fst_updateBetween, List.getLast?_map, getLast?_cut, getLast?_cut, h.last]
  have hmap := setRange_partMap h hsize hbe hend uState eMode
  generalize updateBetween (fun v => ops.makeState v uState eMode) uBegin uEnd
    (cut (cut map.partMap uEnd) uBegin) = cells at hinc hstored hlast hmap
  have hsame : ∀ c ∈ cells, ∀ d ∈ cells, ops.matchState c.2 d.2 = true → c.2 = d.2 :=
    fun c hc d hd => (ops.matchState_iff (hstored c hc) (hstored d hd)).mp
  have hsub := fuse_sublist ops.matchState (fun key => key == 0) cells
  constructor
  · rw [hmap]
    exact increasing_fuse _ _ hinc
  · rw [hmap, getLast?_fuse, hlast]
  · intro part hm
    rw [hmap] at hm
    have hpos : 0 < size := by
      obtain ⟨first, hf, he⟩ := h.exists_last
      rw [← he]
      exact h.positive first hf
    rcases fake_of_mem_fuse ops.matchState _ hm with hk | hk
    · rw [beq_eq_false_iff_ne] at hk
      omega
    · rw [hk, Option.map_some, Option.some.injEq] at hlast
      omega
  · rw [hmap]
    apply isChain_fuse _ _ hsame
    -- a later key lies above the first one, so it is not zero
    intro c hc
    cases cells with
    | nil => cases hc
    | cons a rest =>
      have hac := (List.pairwise_cons.mp hinc).1 c hc
      rw [beq_eq_false_iff_ne]
      omega
  · intro part hm
    rw [hmap] at hm
    exact hstored part (hsub.mem hm)
  · rw [revision_setRange]
    exact Nat.succ_pos _

theorem setRange_canonical (hbe : uBegin < uEnd) (hend : uEnd ≤ size) (uState : V) (eMode : ESet) :
    Canonical ops size (map.setRange ops uBegin uEnd uState eMode) :=
  setRange_canonical_of_le h hsize hbe.le hend uState eMode

/-- `SetRange` applies `MakeState` to exactly the bytes of its range. -/
theorem valueAt_setRange (hbe : uBegin ≤ uEnd) (hend : uEnd ≤ size) (uState : V) (eMode : ESet) (x : ℕ) :
    valueAt (map.setRange ops uBegin uEnd uState eMode).partMap x = if uBegin ≤ x ∧ x < uEnd then
        (valueAt map.partMap x).map fun v => ops.makeState v uState eMode
      else valueAt map.partMap x := by
  have hcuts := increasing_cut (increasing_cut h.increasing uEnd) uBegin
  have hstored := stored_updateBetween h uBegin uEnd uBegin uEnd uState eMode
  obtain ⟨final, hfinal, hsz⟩ := h.exists_last
  have hfinal' : final ∈ cut map.partMap uEnd := mem_cut_of_mem hfinal
  have hfirst : ∃ c ∈ cut (cut map.partMap uEnd) uBegin, c.1 = uBegin :=
    exists_key_cut hfinal' (by omega)
  have hlast : ∃ c ∈ cut (cut map.partMap uEnd) uBegin, c.1 = uEnd := by
    obtain ⟨last, hm, he⟩ : ∃ c ∈ cut map.partMap uEnd, c.1 = uEnd :=
      exists_key_cut hfinal (by omega)
    exact ⟨last, mem_cut_of_mem hm, he⟩
  rw [setRange_partMap h hsize hbe hend, valueAt_fuse]
  · rw [valueAt_updateBetween hcuts _ hfirst hlast, valueAt_cut, valueAt_cut]
  · exact increasing_updateBetween hcuts _ _ _
  · exact fun c hc d hd => (ops.matchState_iff (hstored c hc) (hstored d hd)).mp
  · intro part _ hk
    rw [beq_iff_eq] at hk
    omega

end

theorem Canonical.exists_valueAt (h : Canonical ops size map) {x : ℕ} (hx : x < size) :
    ∃ v, valueAt map.partMap x = some v ∧ ops.Stored v := by
  obtain ⟨final, hfinal, hsz⟩ := h.exists_last
  obtain ⟨v, hv⟩ := Option.isSome_iff_exists.mp (valueAt_isSome hfinal (hsz.symm ▸ hx))
  obtain ⟨part, hm, -, he⟩ := exists_of_valueAt hv
  refine ⟨v, hv, ?_⟩
  rw [← he]
  exact h.stored part hm

variable (ops) in
/-- The state of a byte, the default one past the map. -/
def stateAt (map : CRangeMap V) (x : ℕ) : V := (valueAt map.partMap x).getD ops.default

section

variable (h : Canonical ops size map)

include h

theorem Canonical.valueAt_eq_stateAt {x : ℕ} (hx : x < size) : valueAt map.partMap x = some (stateAt ops map x) := by
  obtain ⟨v, hv, -⟩ := h.exists_valueAt hx
  rw [stateAt, hv, Option.getD_some]

theorem Canonical.stored_stateAt (x : ℕ) : ops.Stored (stateAt ops map x) := by
  rw [stateAt]
  cases hv : valueAt map.partMap x with
  | none => exact ops.stored_default
  | some v =>
    obtain ⟨part, hm, -, rfl⟩ := exists_of_valueAt hv
    exact h.stored part hm

theorem Canonical.stateAt_past {x : ℕ} (hx : size ≤ x) : stateAt ops map x = ops.default := by
  rw [stateAt, valueAt_eq_none fun part hm => (h.le_size hm).trans hx, Option.getD_none]

/-- `SetRange` makes the new state of exactly the bytes of its range, of none with an empty one. -/
theorem stateAt_setRange_of_le (hsize : size < 2 ^ 64)
    {uBegin uEnd : ℕ} (hbe : uBegin ≤ uEnd) (hend : uEnd ≤ size) (uState : V) (eMode : ESet) (x : ℕ) :
    stateAt ops (map.setRange ops uBegin uEnd uState eMode) x =
      if uBegin ≤ x ∧ x < uEnd then ops.makeState (stateAt ops map x) uState eMode
      else stateAt ops map x := by
  rw [stateAt, valueAt_setRange h hsize hbe hend]
  split
  · rename_i hin
    have hx : x < size := by omega
    rw [h.valueAt_eq_stateAt hx, Option.map_some, Option.getD_some]
  · rfl

theorem stateAt_setRange (hsize : size < 2 ^ 64) {uBegin uEnd : ℕ}
    (hbe : uBegin < uEnd) (hend : uEnd ≤ size) (uState : V) (eMode : ESet) (x : ℕ) :
    stateAt ops (map.setRange ops uBegin uEnd uState eMode) x =
      if uBegin ≤ x ∧ x < uEnd then ops.makeState (stateAt ops map x) uState eMode
      else stateAt ops map x :=
  stateAt_setRange_of_le h hsize hbe.le hend uState eMode x

theorem setRange_past {uBegin uEnd : ℕ} (hend : size < uEnd) (harg : uEnd ≠ minusOne) (uState : V) (eMode : ESet) :
    (map.setRange ops uBegin uEnd uState eMode).partMap = map.partMap := by
  have hnone : splitRange map.partMap uEnd = none :=
    splitRange_eq_none fun part hm => (h.le_size hm).trans_lt hend
  simp only [CRangeMap.setRange, if_neg harg, hnone]

end

theorem setRange_minusOne (map : CRangeMap V) (uBegin : ℕ) (uState : V) (eMode : ESet) :
    map.setRange ops uBegin minusOne uState eMode =
      map.setRange ops uBegin map.getSize uState eMode := by
  simp only [CRangeMap.setRange, if_true, ite_self]

theorem stateAt_create (ops : StateOps V) (size x : ℕ) : stateAt ops (CRangeMap.create ops size) x = ops.default := by
  unfold stateAt CRangeMap.create
  rw [valueAt_cons]
  split <;> rfl

/-- A loop whose steps keep a map canonical and change each byte by itself. -/
theorem Canonical.foldl {α : Type*} (h : Canonical ops size map)
    (f : CRangeMap V → α → CRangeMap V) (change : ℕ → V → α → V) {items : List α}
    (hstep : ∀ map, Canonical ops size map → ∀ item ∈ items, Canonical ops size (f map item) ∧
      ∀ x, stateAt ops (f map item) x = change x (stateAt ops map x) item) :
    Canonical ops size (items.foldl f map) ∧
      ∀ x, stateAt ops (items.foldl f map) x = items.foldl (change x) (stateAt ops map x) := by
  induction items generalizing map with
  | nil => exact ⟨h, fun _ => rfl⟩
  | cons item items ih =>
    obtain ⟨hc, hs⟩ := hstep map h item List.mem_cons_self
    obtain ⟨hc', hs'⟩ := ih hc fun map h item hm => hstep map h item (List.mem_cons_of_mem _ hm)
    refine ⟨hc', fun x => ?_⟩
    rw [List.foldl_cons, List.foldl_cons, hs', hs]

variable {calls : List (SetCall V)}

theorem setRanges_canonical (h : Canonical ops size map) (hsize : size < 2 ^ 64)
    (hcalls : ∀ call ∈ calls, call.InRange size) : Canonical ops size (setRanges ops map calls) := by
  induction calls generalizing map with
  | nil => exact h
  | cons call calls ih =>
    obtain ⟨hbe, hend⟩ := hcalls call List.mem_cons_self
    exact ih (setRange_canonical h hsize hbe hend call.uState call.eMode)
      fun c hc => hcalls c (List.mem_cons_of_mem _ hc)

/-- The updates of a run of calls that reach a byte. -/
def updatesAt (calls : List (SetCall V)) (x : ℕ) : List (V × ESet) :=
  (calls.filter fun call => call.uBegin ≤ x ∧ x < call.uEnd).map fun call =>
    (call.uState, call.eMode)

section

variable (h : Canonical ops size map) (hsize : size < 2 ^ 64) (hcalls : ∀ call ∈ calls, call.InRange size)

include h hsize hcalls

/-- A run of calls makes its updates one after the other on each byte. -/
theorem stateAt_setRanges (x : ℕ) : stateAt ops (setRanges ops map calls) x =
      (updatesAt calls x).foldl (fun v u => ops.makeState v u.1 u.2) (stateAt ops map x) := by
  induction calls generalizing map with
  | nil => rfl
  | cons call calls ih =>
    obtain ⟨hbe, hend⟩ := hcalls call List.mem_cons_self
    have hrest := ih (setRange_canonical h hsize hbe hend call.uState call.eMode)
      fun c hc => hcalls c (List.mem_cons_of_mem _ hc)
    rw [setRanges, List.foldl_cons]
    refine hrest.trans ?_
    rw [stateAt_setRange h hsize hbe hend, updatesAt, updatesAt, List.filter_cons]
    by_cases hin : call.uBegin ≤ x ∧ x < call.uEnd
    · rw [if_pos hin, if_pos (decide_eq_true hin), List.map_cons, List.foldl_cons]
    · rw [if_neg hin, if_neg (by simpa using hin)]

/-- A run of calls changes every byte as it changes a plain array. -/
theorem valueAt_setRanges {bytes : ℕ → V} (hbytes : ∀ x < size, valueAt map.partMap x = some (bytes x)) :
    ∀ x < size, valueAt (setRanges ops map calls).partMap x = some (calls.foldl (setBytes ops) bytes x) := by
  induction calls generalizing map bytes with
  | nil => exact hbytes
  | cons call calls ih =>
    obtain ⟨hbe, hend⟩ := hcalls call List.mem_cons_self
    apply ih (setRange_canonical h hsize hbe hend call.uState call.eMode)
      (fun c hc => hcalls c (List.mem_cons_of_mem _ hc))
    intro x hx
    rw [valueAt_setRange h hsize hbe.le hend, hbytes x hx, Option.map_some, setBytes]
    split <;> rfl

end

/-- After any run of calls on a fresh map, the map is canonical and agrees
with the plain array at every byte. -/
theorem setRanges_refines_bytes (ops : StateOps V) (hpos : 0 < size) (hsize : size < 2 ^ 64)
    {calls : List (SetCall V)} (hcalls : ∀ call ∈ calls, call.InRange size) :
    Canonical ops size (setRanges ops (CRangeMap.create ops size) calls) ∧
      ∀ x < size, valueAt (setRanges ops (CRangeMap.create ops size) calls).partMap x =
        some (bytesAfter ops calls x) := by
  have hc := canonical_create ops hpos
  refine ⟨setRanges_canonical hc hsize hcalls, valueAt_setRanges hc hsize hcalls ?_⟩
  intro x hx
  simp only [CRangeMap.create, valueAt, if_pos hx]

/-- Three overlapping calls, one of them over the whole map. -/
theorem setRanges_refines_bytes_ten : Canonical (valueMapOps 16) 10 (setRanges (valueMapOps 16)
      (CRangeMap.create (valueMapOps 16) 10)
      [⟨0, 10, 1, ESet.eAdd⟩, ⟨2, 5, 2, ESet.eSet⟩, ⟨4, 10, 1, ESet.eClr⟩]) ∧
    ∀ x < 10, valueAt (setRanges (valueMapOps 16) (CRangeMap.create (valueMapOps 16) 10)
      [⟨0, 10, 1, ESet.eAdd⟩, ⟨2, 5, 2, ESet.eSet⟩, ⟨4, 10, 1, ESet.eClr⟩]).partMap x =
        some (bytesAfter (valueMapOps 16) [⟨0, 10, 1, ESet.eAdd⟩, ⟨2, 5, 2, ESet.eSet⟩, ⟨4, 10, 1, ESet.eClr⟩] x) :=
  setRanges_refines_bytes (valueMapOps 16) (by decide) (by decide) (by decide)

/-- The maps of a size that the constructor, `SetRange`, `Reset` and `Assign`
build. -/
inductive Reachable (ops : StateOps V) : ℕ → CRangeMap V → Prop
  | create {size : ℕ} : 0 < size → size < 2 ^ 64 → Reachable ops size (CRangeMap.create ops size)
  | setRange {size : ℕ} {map : CRangeMap V} (call : SetCall V) : Reachable ops size map → call.InRange size →
    Reachable ops size (map.setRange ops call.uBegin call.uEnd call.uState call.eMode)
  | reset {size newSize : ℕ} {map : CRangeMap V} : Reachable ops size map → 0 < newSize → newSize < 2 ^ 64 →
    Reachable ops (if newSize = minusOne then size else newSize) (map.reset ops newSize)
  | assign {size otherSize : ℕ} {map other : CRangeMap V} : Reachable ops size map →
    Reachable ops otherSize other → Reachable ops otherSize (map.assign other)

/-- Reachable maps are canonical, of a size that fits. -/
theorem Reachable.canonical (h : Reachable ops size map) : Canonical ops size map ∧ size < 2 ^ 64 := by
  induction h with
  | create hpos hsize => exact ⟨canonical_create ops hpos, hsize⟩
  | setRange call _ hcall ih =>
    obtain ⟨hc, hsize⟩ := ih
    exact ⟨setRange_canonical hc hsize hcall.1 hcall.2 _ _, hsize⟩
  | @reset size newSize map _ hpos hlt ih =>
    obtain ⟨hc, hsize⟩ := ih
    have hsize' : 0 < if newSize = minusOne then size else newSize := by
      split
      · obtain ⟨last, hm, he⟩ := hc.exists_last
        rw [← he]
        exact hc.positive last hm
      · exact hpos
    constructor
    · have hnew := canonical_create ops hsize'
      rw [CRangeMap.reset, hc.getSize]
      exact ⟨hnew.increasing, hnew.last, hnew.positive, hnew.distinct, hnew.stored, Nat.succ_pos _⟩
    · split <;> assumption
  | assign _ _ ih ih' =>
    obtain ⟨hc, hsize⟩ := ih'
    exact ⟨⟨hc.increasing, hc.last, hc.positive, hc.distinct, hc.stored, Nat.succ_pos _⟩, hsize⟩

theorem Canonical.values_ne (h : Canonical ops size map) : map.partMap.IsChain fun a b => a.2 ≠ b.2 := by
  have hchain := h.distinct
  rw [List.isChain_iff_getElem] at hchain ⊢
  intro i hi heq
  have hmatch := (ops.matchState_iff (h.stored _ (List.getElem_mem _)) (h.stored _ (List.getElem_mem _))).mpr heq
  rw [hchain i hi] at hmatch
  cases hmatch

/-- The ranges of a map are those of its bytes. -/
theorem Canonical.partMap_eq (h : Canonical ops size map) (h' : Canonical ops size map')
    (hsame : ∀ x < size, valueAt map.partMap x = valueAt map'.partMap x) : map.partMap = map'.partMap := by
  refine eq_of_valueAt h.increasing h'.increasing h.positive h'.positive h.values_ne h'.values_ne fun x _ => ?_
  rcases Nat.lt_or_ge x size with hx | hx
  · exact hsame x hx
  · rw [valueAt_eq_none fun part hm => (h.le_size hm).trans hx, valueAt_eq_none fun part hm => (h'.le_size hm).trans hx]

/-- However two maps came about, they store the same ranges if and only if all bytes have the same states. -/
theorem Reachable.partMap_eq_iff {map' : CRangeMap V} (h : Reachable ops size map) (h' : Reachable ops size map') :
    map.partMap = map'.partMap ↔ ∀ x < size, stateAt ops map x = stateAt ops map' x := by
  refine ⟨fun heq x _ => by rw [stateAt, stateAt, heq], fun hsame => ?_⟩
  refine h.canonical.1.partMap_eq h'.canonical.1 fun x hx => ?_
  rw [h.canonical.1.valueAt_eq_stateAt hx, h'.canonical.1.valueAt_eq_stateAt hx, hsame x hx]

/-- A range that is set at once, and the same range in two steps. -/
theorem Reachable.partMap_eq_ten :
    ((CRangeMap.create (valueMapOps 16) 10).setRange (valueMapOps 16) 2 5 1 .eSet).partMap =
      (((CRangeMap.create (valueMapOps 16) 10).setRange (valueMapOps 16) 2 3 1 .eSet).setRange (valueMapOps 16) 3 5 1
        .eAdd).partMap :=
  (Reachable.partMap_eq_iff
    (.setRange ⟨2, 5, 1, .eSet⟩ (.create (by decide) (by decide)) ⟨by decide, by decide⟩)
    (.setRange ⟨3, 5, 1, .eAdd⟩ (.setRange ⟨2, 3, 1, .eSet⟩ (.create (by decide) (by decide))
      ⟨by decide, by decide⟩) ⟨by decide, by decide⟩)).mpr (by decide)

end Update

end NeoLoader.RangeMap
