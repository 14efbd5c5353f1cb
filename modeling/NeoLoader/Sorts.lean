import Mathlib.Data.List.Perm.Basic
import Mathlib.Order.Defs.Unbundled
import Mathlib.Tactic.Linarith
import NeoLoader.HeapOrder

/-!
# Sorting through callbacks

The two sorts see an array only through callbacks, which compare, exchange or copy elements at given indices. An index
outside of the array is no result.
-/

namespace NeoLoader.Sorts

open HeapOrder

variable {α : Type}

section Model

/-- `HeapCmp` or `Cmp`, of elements of the array. -/
def heapCmp (Cmp : α → α → Bool) (refArray : List α) (l r : ℕ) : Option Bool := do
  let x ← refArray[l]?
  let y ← refArray[r]?
  some (Cmp x y)

/-- `HeapMov`, which exchanges two elements. -/
def heapMov (refArray : List α) (r l : ℕ) : Option (List α) := do
  let x ← refArray[r]?
  let y ← refArray[l]?
  some ((refArray.set r y).set l x)

variable (Cmp : α → α → Bool)

/-- The child that `HeapSortAux` goes on with. -/
def biggerChild (refArray : List α) (last r : ℕ) : Option ℕ :=
  if 2 * r + 1 ≠ last then
    (heapCmp Cmp refArray (2 * r + 1) (2 * r + 2)).map fun less => if less then 2 * r + 2 else 2 * r + 1
  else some (2 * r + 1)

variable {Cmp} in
theorem lt_of_biggerChild {refArray : List α} {last r r2 : ℕ} (h : biggerChild Cmp refArray last r = some r2) :
    r < r2 := by
  rw [biggerChild] at h
  split_ifs at h
  · obtain ⟨less, -, rfl⟩ := Option.map_eq_some_iff.mp h
    cases less <;> simp
    · omega
    · omega
  · cases h
    omega

/-- The loop of `HeapSortAux`. -/
def heapSortAux (last r : ℕ) (refArray : List α) : Option (List α) :=
  if r < 2 ^ 31 ∧ 2 * r < last then
    match _hchild : biggerChild Cmp refArray last r with
    | none => none
    | some r2 =>
      (heapCmp Cmp refArray r r2).bind fun less =>
        if less then
          (heapMov refArray r2 r).bind fun refArray => heapSortAux last r2 refArray
        else some refArray
  else some refArray
termination_by last - r
decreasing_by
  have := lt_of_biggerChild _hchild
  omega

/-- The first loop of `HeapSort`, which makes a heap. -/
def heapSortUp (n : ℕ) : ℕ → List α → Option (List α)
  | 0, refArray => some refArray
  | r + 1, refArray => (heapSortAux Cmp (n - 1) r refArray).bind (heapSortUp n r)

/-- The second loop of `HeapSort`, which takes the biggest element off the heap. -/
def heapSortDown : ℕ → List α → Option (List α)
  | 0, refArray => some refArray
  | r + 1, refArray =>
    if r = 0 then some refArray
    else (heapMov refArray r 0).bind fun refArray =>
      (heapSortAux Cmp (r - 1) 0 refArray).bind (heapSortDown r)

def heapSort (refArray : List α) : Option (List α) :=
  let n := refArray.length
  if 0 < n then (heapSortUp Cmp n (n / 2) refArray).bind (heapSortDown Cmp n) else some refArray

/-- `Cpy`, which copies an element of one array to another. -/
def cpy (T S : List α) (t s : ℕ) : Option (List α) :=
  if t < T.length then S[s]?.map (T.set t) else none

/-- A loop of `Cpy`, with the number of turns that it takes. -/
def cpyLoop (S : List α) : ℕ → List α → ℕ → ℕ → Option (List α)
  | 0, T, _, _ => some T
  | n + 1, T, t, s => (cpy T S t s).bind fun T => cpyLoop S n T (t + 1) (s + 1)

/-- The three loops of `MergeSortAux` that fill the buffer. -/
def mergeLoop (lst : List α) (middle last a b r : ℕ) (res : List α) : Option (List α) :=
  if a < middle ∧ b < last then
    (heapCmp Cmp lst a b).bind fun less =>
      if less then (cpy res lst r a).bind (mergeLoop lst middle last (a + 1) b (r + 1))
      else (cpy res lst r b).bind (mergeLoop lst middle last a (b + 1) (r + 1))
  else
    (cpyLoop lst (middle - a) res r a).bind fun res => cpyLoop lst (last - b) res (r + (middle - a)) b
termination_by (middle - a) + (last - b)

def mergeSortAux (lst res : List α) (begin middle last : ℕ) : Option (List α × List α) :=
  (mergeLoop Cmp lst middle last begin middle 0 res).bind fun res =>
    (cpyLoop res (last - begin) lst begin 0).map fun lst => (lst, res)

/-- `MergeSort`, with the buffer. -/
def mergeSortRange (lst res : List α) (begin last : ℕ) : Option (List α × List α) :=
  if 1 < last - begin then
    (mergeSortRange lst res begin (begin + (last - begin) / 2)).bind fun (lst, res) =>
      (mergeSortRange lst res (begin + (last - begin) / 2) last).bind fun (lst, res) =>
        mergeSortAux Cmp lst res begin (begin + (last - begin) / 2) last
  else some (lst, res)
termination_by last - begin
decreasing_by all_goals omega

/-- `MergeSort`, whose copy of the array is used as a buffer only. -/
def mergeSort (lst res : List α) : Option (List α) := (mergeSortRange Cmp lst res 0 lst.length).map Prod.fst

end Model

section Order

variable {Cmp : α → α → Bool} {R : α → α → Prop}

/-- The comparison is a strict weak order, or a total preorder. -/
def IsComparison (Cmp : α → α → Bool) : Prop :=
  IsStrictWeakOrder α (fun x y => Cmp x y = true) ∨
    IsPreorder α (fun x y => Cmp x y = true) ∧ Std.Total (fun x y => Cmp x y = true)

/-- The order of a comparison: the one is found less, or the other is not. -/
def InOrder (Cmp : α → α → Bool) (x y : α) : Prop := Cmp x y = true ∨ Cmp y x = false

theorem inOrder_iff_of_weak (h : IsStrictWeakOrder α (fun x y => Cmp x y = true)) {x y : α} :
    InOrder Cmp x y ↔ Cmp y x = false := by
  refine or_iff_right_of_imp fun hxy => ?_
  by_contra hyx
  exact h.irrefl x (h.trans x y x hxy (by simpa using hyx))

theorem inOrder_iff_of_total (h : Std.Total (fun x y => Cmp x y = true)) {x y : α} :
    InOrder Cmp x y ↔ Cmp x y = true := by
  refine or_iff_left_of_imp fun hyx => ?_
  exact (h.total x y).resolve_right (by simp [hyx])

/-- The order that a comparison decides. -/
structure Decides (Cmp : α → α → Bool) (R : α → α → Prop) : Prop where
  /-- What is found less is in order. -/
  of_true : ∀ x y, Cmp x y = true → R x y
  /-- What is not found less is in order the other way. -/
  of_false : ∀ x y, Cmp x y = false → R y x
  /-- The order is transitive. -/
  trans : ∀ x y z, R x y → R y z → R x z

theorem Decides.refl (h : Decides Cmp R) (x : α) : R x x := by
  cases hx : Cmp x x with
  | true => exact h.of_true x x hx
  | false => exact h.of_false x x hx

theorem trans_of_weak (h : IsStrictWeakOrder α (fun x y => Cmp x y = true)) {x y z : α} (hyx : ¬ Cmp y x = true)
    (hzy : ¬ Cmp z y = true) : ¬ Cmp z x = true := by
  intro hzx
  by_cases hxy : Cmp x y = true
  · exact hzy (h.trans z x y hzx hxy)
  · by_cases hyz : Cmp y z = true
    · exact hyx (h.trans y z x hyz hzx)
    · exact (h.incomp_trans x y z ⟨hxy, hyx⟩ ⟨hyz, hzy⟩).2 hzx

theorem IsComparison.decides (h : IsComparison Cmp) : Decides Cmp (InOrder Cmp) where
  of_true x y hxy := Or.inl hxy
  of_false x y hxy := Or.inr hxy
  trans x y z := by
    rcases h with hweak | ⟨hpre, htotal⟩
    · simp only [inOrder_iff_of_weak hweak, ← Bool.not_eq_true]
      exact trans_of_weak hweak
    · simp only [inOrder_iff_of_total htotal]
      exact hpre.trans x y z

end Order

section HeapSort

variable {Cmp : α → α → Bool} {R : α → α → Prop} {refArray : List α} {d : α}

/-- An array as a function of its indices. -/
def view (d : α) (refArray : List α) (k : ℕ) : α := refArray.getD k d

theorem heapCmp_eq {l r : ℕ} (hl : l < refArray.length) (hr : r < refArray.length) :
    heapCmp Cmp refArray l r = some (Cmp (view d refArray l) (view d refArray r)) := by
  simp [heapCmp, view, hl, hr]

/-- The exchange of two elements of the array. -/
theorem heapMov_spec {r l : ℕ} (hr : r < refArray.length) (hl : l < refArray.length) :
    ∃ refArray', heapMov refArray r l = some refArray' ∧ refArray'.Perm refArray ∧
      view d refArray' = view d refArray ∘ Equiv.swap r l := by
  refine ⟨(refArray.set r refArray[l]).set l refArray[r], ?_, List.set_set_perm hr hl, ?_⟩
  · simp [heapMov, hl, hr]
  · funext k
    rw [Function.comp_apply, view, view, Equiv.swap_apply_def]
    simp only [List.getD_eq_getElem?_getD, List.getElem?_set, List.length_set]
    by_cases hkl : l = k
    · subst hkl
      by_cases hlr : l = r
      · simp [hlr, hr]
      · simp [hlr, hr, hl]
    · by_cases hkr : k = r
      · subst hkr
        simp [hkl, hr, hl]
      · simp [hkl, hkr, Ne.symm hkr, Ne.symm hkl]

section

variable (hC : Decides Cmp R)

include hC

/-- The children of a place are compared inside of the array, and the bigger one is taken. -/
theorem biggerChild_spec {last r : ℕ} (hlast : last < refArray.length) (hr : 2 * r < last) :
    ∃ r2, biggerChild Cmp refArray last r = some r2 ∧ IsChild r r2 ∧ r2 ≤ last ∧
      ∀ c, IsChild r c → c ≤ last → R (view d refArray c) (view d refArray r2) := by
  rw [biggerChild]
  by_cases hone : 2 * r + 1 = last
  · refine ⟨2 * r + 1, if_neg (by simp [hone]), Or.inl rfl, by omega, ?_⟩
    rintro c (rfl | rfl) hc
    · exact hC.refl _
    · omega
  · rw [if_pos hone, heapCmp_eq (d := d) (by omega) (by omega), Option.map_some]
    cases hless : Cmp (view d refArray (2 * r + 1)) (view d refArray (2 * r + 2)) with
    | true =>
      refine ⟨2 * r + 2, rfl, Or.inr rfl, by omega, ?_⟩
      rintro c (rfl | rfl) -
      · exact hC.of_true _ _ hless
      · exact hC.refl _
    | false =>
      refine ⟨2 * r + 1, rfl, Or.inl rfl, by omega, ?_⟩
      rintro c (rfl | rfl) -
      · exact hC.refl _
      · exact hC.of_false _ _ hless

/-- The element sinks into the heap, and nothing behind the heap is moved. -/
theorem heapSortAux_spec {first last : ℕ} (hlast : last < refArray.length)
    (hsize : refArray.length ≤ 2 ^ 31) {r : ℕ} (hfirst : first ≤ r) (hr : r ≤ last)
    (hheap : HeapBut R (view d refArray) first last r) :
    ∃ refArray', heapSortAux Cmp last r refArray = some refArray' ∧ refArray'.Perm refArray ∧
      Shuffled (last + 1) (view d refArray) (view d refArray') ∧ Heap R (view d refArray') first last := by
  induction hn : last - r using Nat.strongRecOn generalizing r refArray with
  | ind n ih =>
    rw [heapSortAux]
    by_cases hmore : 2 * r < last
    · obtain ⟨r2, hchild, hr2, hle, hbest⟩ := biggerChild_spec (d := d) hC hlast hmore
      have hlt := hr2.lt
      rw [if_pos ⟨by omega, hmore⟩]
      split
      · next hnone => simp [hchild] at hnone
      · next r2' hsome =>
        obtain rfl : r2 = r2' := by simpa [hchild] using hsome
        rw [@heapCmp_eq _ _ _ d _ _ (by omega) (by omega), Option.bind_some]
        cases hless : Cmp (view d refArray r) (view d refArray r2) with
        | true =>
          obtain ⟨moved, hmov, hperm, hview⟩ := @heapMov_spec _ refArray d r2 r (by omega) (by omega)
          rw [if_pos rfl, hmov, Option.bind_some]
          have hlength := hperm.length_eq
          have hnext : HeapBut R (view d moved) first last r2 := by
            rw [hview, Equiv.swap_comm]
            exact hheap.sink hfirst hr2 hle hbest (hC.of_true _ _ hless)
          obtain ⟨sunk, haux, hperm', hshuffled, hsunk⟩ :=
            ih (last - r2) (by omega) (by omega) (by omega) (by omega) hle hnext rfl
          refine ⟨sunk, haux, hperm'.trans hperm, Shuffled.trans ?_ hshuffled, hsunk⟩
          rw [hview]
          exact Shuffled.swap (by omega) (by omega) _
        | false =>
          refine ⟨refArray, rfl, List.Perm.refl _, Shuffled.refl _ _, hheap.heap fun c hc hle' => ?_⟩
          exact hC.trans _ _ _ (hbest c hc hle') (hC.of_false _ _ hless)
    · rw [if_neg fun h => hmore h.2]
      refine ⟨refArray, rfl, List.Perm.refl _, Shuffled.refl _ _, hheap.heap ?_⟩
      intro c hc hle
      rcases hc with rfl | rfl <;> omega

/-- The first loop makes a heap. -/
theorem heapSortUp_spec {n : ℕ} (hn : refArray.length = n) (hsize : n ≤ 2 ^ 31) {r : ℕ}
    (hr : 2 * r ≤ n) (hheap : Heap R (view d refArray) r (n - 1)) :
    ∃ refArray', heapSortUp Cmp n r refArray = some refArray' ∧ refArray'.Perm refArray ∧
      Heap R (view d refArray') 0 (n - 1) := by
  induction r generalizing refArray with
  | zero => exact ⟨refArray, rfl, List.Perm.refl _, hheap⟩
  | succ r ih =>
    obtain ⟨sunk, haux, hperm, -, hsunk⟩ :=
      heapSortAux_spec hC (by omega) (by omega) le_rfl (by omega) hheap.heapBut
    obtain ⟨heap, hup, hperm', hheap'⟩ := ih (hperm.length_eq.trans hn) (by omega) hsunk
    refine ⟨heap, ?_, hperm'.trans hperm, hheap'⟩
    rw [heapSortUp, haux, Option.bind_some, hup]

/-- The second loop settles the elements from the last one on. -/
theorem heapSortDown_spec {n : ℕ} (hn : refArray.length = n) (hsize : n ≤ 2 ^ 31) {r : ℕ}
    (hr : r < n) (hheap : Heap R (view d refArray) 0 r) (hsettled : Settled R (view d refArray) (r + 1) n) :
    ∃ refArray', heapSortDown Cmp (r + 1) refArray = some refArray' ∧ refArray'.Perm refArray ∧
      Settled R (view d refArray') 1 n := by
  induction r generalizing refArray with
  | zero => exact ⟨refArray, rfl, List.Perm.refl _, hsettled⟩
  | succ r ih =>
    obtain ⟨moved, hmov, hperm, hview⟩ := @heapMov_spec _ refArray d (r + 1) 0 (by omega) (by omega)
    have hlength := hperm.length_eq
    have hroot : HeapBut R (view d moved) 0 r 0 := by
      rw [hview]
      exact hheap.exchange
    obtain ⟨sunk, haux, hperm', hshuffled, hsunk⟩ :=
      heapSortAux_spec hC (by omega) (by omega) le_rfl (Nat.zero_le _) hroot
    have hnext : Settled R (view d sunk) (r + 1) n := by
      rw [hview] at hshuffled
      exact hsettled.extract (hheap.root hC.refl hC.trans) hshuffled
    obtain ⟨sorted, hdown, hperm'', hsorted⟩ := ih (by rw [hperm'.length_eq, hlength, hn]) (by omega) hsunk hnext
    refine ⟨sorted, ?_, (hperm''.trans hperm').trans hperm, hsorted⟩
    rw [heapSortDown, if_neg (by omega), hmov, Option.bind_some, Nat.add_sub_cancel, haux, Option.bind_some, hdown]

/-- `HeapSort` sorts, and no callback gets an index outside of the array. -/
theorem heapSort_spec (hsize : refArray.length ≤ 2 ^ 31) :
    ∃ sorted, heapSort Cmp refArray = some sorted ∧ sorted.Perm refArray ∧ sorted.Pairwise R := by
  rw [heapSort]
  cases hn : refArray.length with
  | zero =>
    refine ⟨refArray, rfl, List.Perm.refl _, ?_⟩
    rw [List.eq_nil_of_length_eq_zero hn]
    exact List.Pairwise.nil
  | succ n =>
    have hlt : 0 < refArray.length := by omega
    obtain ⟨d, -⟩ : ∃ d, d = refArray[0] := ⟨_, rfl⟩
    have hleaves : Heap R (view d refArray) ((n + 1) / 2) (n + 1 - 1) := by
      intro k c hk hchild hc
      rcases hchild with rfl | rfl <;> omega
    obtain ⟨heap, hup, hperm, hheap⟩ := heapSortUp_spec hC hn (by omega) (by omega) hleaves
    obtain ⟨sorted, hdown, hperm', hsettled⟩ :=
      heapSortDown_spec hC (hperm.length_eq.trans hn) (by omega) (Nat.lt_succ_self n) hheap
        fun i j _ hj hlt' => by omega
    refine ⟨sorted, ?_, hperm'.trans hperm, ?_⟩
    · simp only [Nat.zero_lt_succ, if_true]
      rw [hup, Option.bind_some, hdown]
    · have hlength : sorted.length = n + 1 := by rw [hperm'.length_eq, hperm.length_eq, hn]
      rw [List.pairwise_iff_getElem]
      intro i j hi hj hij
      have hle := hsettled i j hij (by omega) (by omega)
      simpa [view, hi, hj] using hle

end

end HeapSort

section MergeSort

variable {Cmp : α → α → Bool} {R : α → α → Prop}

/-- The elements of an array from an index on. -/
def Reads (lst : List α) (a : ℕ) (xs : List α) : Prop := ∀ i (hi : i < xs.length), lst[a + i]? = some xs[i]

theorem reads_cons {lst : List α} {a : ℕ} {x : α} {xs : List α} (h : Reads lst a (x :: xs)) :
    lst[a]? = some x ∧ Reads lst (a + 1) xs := by
  refine ⟨h 0 (by simp), fun i hi => ?_⟩
  have hnext := h (i + 1) (by simpa using hi)
  rw [Nat.add_assoc, Nat.add_comm 1 i]
  simpa using hnext

theorem reads_append (front xs rest : List α) : Reads (front ++ xs ++ rest) front.length xs := by
  intro i hi
  rw [List.append_assoc, List.getElem?_append_right (by omega), List.getElem?_append_left (by omega),
    Nat.add_sub_cancel_left, List.getElem?_eq_getElem hi]

theorem cpy_spec {S out rest : List α} {x y : α} {s : ℕ} (hs : S[s]? = some x) :
    cpy (out ++ y :: rest) S out.length s = some (out ++ x :: rest) := by
  simp [cpy, hs]

/-- Elements are copied one after the other. -/
theorem cpyLoop_spec {S xs : List α} {s : ℕ} (hxs : Reads S s xs) (out old rest : List α)
    (hold : old.length = xs.length) :
    cpyLoop S xs.length (out ++ old ++ rest) out.length s = some (out ++ xs ++ rest) := by
  induction xs generalizing out old s with
  | nil =>
    rw [List.length_nil, List.length_eq_zero_iff] at hold
    rw [hold]
    rfl
  | cons x xs ih =>
    cases old with
    | nil => simp at hold
    | cons y old =>
      obtain ⟨hfirst, hrest⟩ := reads_cons hxs
      rw [List.length_cons, cpyLoop, List.append_assoc, List.cons_append, cpy_spec hfirst, Option.bind_some]
      have hnext := ih hrest (out ++ [x]) old (by simpa using hold)
      simpa using hnext

theorem cpyLoop_two {S xs ys : List α} {a b : ℕ} (hxs : Reads S a xs) (hys : Reads S b ys) (out old rest : List α)
    (hold : old.length = xs.length + ys.length) :
    ((cpyLoop S xs.length (out ++ old ++ rest) out.length a).bind fun res =>
      cpyLoop S ys.length res (out.length + xs.length) b) = some (out ++ (xs ++ ys) ++ rest) := by
  have hfirst : out ++ old ++ rest = out ++ old.take xs.length ++ (old.drop xs.length ++ rest) := by
    rw [← List.append_assoc (out ++ _), List.append_assoc out (old.take _), List.take_append_drop]
  have hsecond := cpyLoop_spec hys (out ++ xs) (old.drop xs.length) rest (by simp [hold])
  rw [hfirst, cpyLoop_spec hxs out _ _ (by simp [hold]), Option.bind_some]
  simpa using hsecond

theorem mergeLoop_end {lst xs ys : List α} {a b : ℕ} (hxs : Reads lst a xs) (hys : Reads lst b ys)
    (hend : xs = [] ∨ ys = []) (out old rest : List α) (hold : old.length = xs.length + ys.length) :
    mergeLoop Cmp lst (a + xs.length) (b + ys.length) a b out.length (out ++ old ++ rest) =
      some (out ++ (xs ++ ys) ++ rest) := by
  have hstop : ¬ (a < a + xs.length ∧ b < b + ys.length) := by
    rcases hend with rfl | rfl <;> simp
  rw [mergeLoop, if_neg hstop, Nat.add_sub_cancel_left, Nat.add_sub_cancel_left]
  exact cpyLoop_two hxs hys out old rest hold

/-- The loops of `MergeSortAux` merge two lists into the buffer. -/
theorem mergeLoop_spec {lst xs ys : List α} {a b : ℕ} (hxs : Reads lst a xs) (hys : Reads lst b ys)
    (out old rest : List α) (hold : old.length = xs.length + ys.length) :
    mergeLoop Cmp lst (a + xs.length) (b + ys.length) a b out.length (out ++ old ++ rest) =
      some (out ++ xs.merge ys Cmp ++ rest) := by
  induction hn : xs.length + ys.length generalizing xs ys a b out old with
  | zero =>
    obtain rfl : xs = [] := List.eq_nil_of_length_eq_zero (by omega)
    simpa using @mergeLoop_end _ Cmp _ _ _ _ _ hxs hys (Or.inl rfl) out old rest hold
  | succ n ih =>
    cases xs with
    | nil => simpa using @mergeLoop_end _ Cmp _ _ _ _ _ hxs hys (Or.inl rfl) out old rest hold
    | cons x xs =>
      cases ys with
      | nil => simpa using @mergeLoop_end _ Cmp _ _ _ _ _ hxs hys (Or.inr rfl) out old rest hold
      | cons y ys =>
        cases old with
        | nil => simp at hold
        | cons z old =>
          obtain ⟨hx, hxs'⟩ := reads_cons hxs
          obtain ⟨hy, hys'⟩ := reads_cons hys
          simp only [List.length_cons] at hold hn ⊢
          have hcmp : heapCmp Cmp lst a b = some (Cmp x y) := by simp [heapCmp, hx, hy]
          rw [mergeLoop, if_pos (by omega), hcmp, Option.bind_some, List.append_assoc, List.cons_append]
          cases hless : Cmp x y with
          | true =>
            have hnext := ih hxs' hys (out ++ [x]) old (by simp; omega) (by simp; omega)
            rw [if_pos rfl, cpy_spec hx, Option.bind_some, List.cons_merge_cons_pos _ _ _ hless]
            simpa [Nat.add_assoc, Nat.add_comm 1] using hnext
          | false =>
            have hnext := ih hxs hys' (out ++ [y]) old (by simp; omega) (by simp; omega)
            rw [if_neg (by simp), cpy_spec hy, Option.bind_some, List.cons_merge_cons_neg _ _ _ (by simp [hless])]
            simpa [Nat.add_assoc, Nat.add_comm 1] using hnext

/-- A merge of lists in order is in order. -/
theorem pairwise_merge (hC : Decides Cmp R) {xs ys : List α} (hxs : xs.Pairwise R) (hys : ys.Pairwise R) :
    (xs.merge ys Cmp).Pairwise R := by
  induction xs generalizing ys with
  | nil => simpa using hys
  | cons x xs ihx =>
    induction ys with
    | nil => simpa using hxs
    | cons y ys ihy =>
      rw [List.pairwise_cons] at hxs hys
      cases hless : Cmp x y with
      | true =>
        have hxy := hC.of_true x y hless
        rw [List.cons_merge_cons_pos _ _ _ hless, List.pairwise_cons]
        refine ⟨fun z hz => ?_, ihx hxs.2 (List.pairwise_cons.mpr hys)⟩
        rcases List.mem_merge.mp hz with hz | hz
        · exact hxs.1 z hz
        · rcases List.mem_cons.mp hz with rfl | hz
          · exact hxy
          · exact hC.trans _ _ _ hxy (hys.1 z hz)
      | false =>
        have hyx := hC.of_false x y hless
        rw [List.cons_merge_cons_neg _ _ _ (by simp [hless]), List.pairwise_cons]
        refine ⟨fun z hz => ?_, ihy hys.2⟩
        rcases List.mem_merge.mp hz with hz | hz
        · rcases List.mem_cons.mp hz with rfl | hz
          · exact hyx
          · exact hC.trans _ _ _ hyx (hxs.1 z hz)
        · exact hys.1 z hz

/-- `MergeSortAux` merges two parts of the array in place. -/
theorem mergeSortAux_spec (front xs ys rest res : List α) (hres : res.length = (front ++ xs ++ ys ++ rest).length) :
    ∃ res', mergeSortAux Cmp (front ++ xs ++ ys ++ rest) res front.length (front.length + xs.length)
        (front.length + xs.length + ys.length) = some (front ++ xs.merge ys Cmp ++ rest, res') ∧
      res'.length = res.length := by
  have hxs : Reads (front ++ xs ++ ys ++ rest) front.length xs := by
    simpa using reads_append front xs (ys ++ rest)
  have hys : Reads (front ++ xs ++ ys ++ rest) (front.length + xs.length) ys := by
    simpa using reads_append (front ++ xs) ys rest
  simp only [List.length_append] at hres
  have hloop := @mergeLoop_spec _ Cmp _ _ _ _ _ hxs hys [] (res.take (xs.length + ys.length))
    (res.drop (xs.length + ys.length)) (by simp; omega)
  simp only [List.nil_append, List.take_append_drop, List.length_nil] at hloop
  have hmerged : Reads (xs.merge ys Cmp ++ res.drop (xs.length + ys.length)) 0 (xs.merge ys Cmp) := by
    simpa using reads_append [] (xs.merge ys Cmp) (res.drop (xs.length + ys.length))
  have hcopy := cpyLoop_spec hmerged front (xs ++ ys) rest (by simp)
  have hcount : front.length + xs.length + ys.length - front.length = (xs.merge ys Cmp).length := by
    simp
    omega
  have hlst : front ++ xs ++ ys ++ rest = front ++ (xs ++ ys) ++ rest := by simp
  refine ⟨xs.merge ys Cmp ++ res.drop (xs.length + ys.length), ?_, by simp; omega⟩
  rw [mergeSortAux, hloop, Option.bind_some, hcount, hlst, hcopy, Option.map_some]

/-- `MergeSort` sorts a part of the array. -/
theorem mergeSortRange_spec (hC : Decides Cmp R) (front xs rest res : List α)
    (hres : res.length = (front ++ xs ++ rest).length) :
    ∃ ys res', mergeSortRange Cmp (front ++ xs ++ rest) res front.length (front.length + xs.length) =
        some (front ++ ys ++ rest, res') ∧ ys.Perm xs ∧ ys.Pairwise R ∧ res'.length = res.length := by
  induction hn : xs.length using Nat.strongRecOn generalizing front xs rest res with
  | ind n ih =>
    rw [mergeSortRange, Nat.add_sub_cancel_left]
    split_ifs with hmore
    · obtain ⟨left, right, hleft, rfl⟩ : ∃ left right, left.length = n / 2 ∧ xs = left ++ right :=
        ⟨xs.take (n / 2), xs.drop (n / 2), by simp; omega, by simp⟩
      rw [List.length_append] at hn
      simp only [List.length_append] at hres
      obtain ⟨left', res₁, hsort, hperm, hsorted, hlength₁⟩ :=
        ih left.length (by omega) front left (right ++ rest) res (by simp; omega) rfl
      have hperm_length := hperm.length_eq
      obtain ⟨right', res₂, hsort', hperm', hsorted', hlength₂⟩ :=
        ih right.length (by omega) (front ++ left') right rest res₁ (by simp; omega) rfl
      have hperm_length' := hperm'.length_eq
      obtain ⟨res₃, haux, hlength₃⟩ := @mergeSortAux_spec _ Cmp front left' right' rest res₂ (by simp; omega)
      refine ⟨left'.merge right' Cmp, res₃, ?_, (List.merge_perm_append _).trans (hperm.append hperm'),
        pairwise_merge hC hsorted hsorted', by omega⟩
      have hmiddle : front.length + n / 2 = front.length + left.length := by omega
      have hend : front.length + n = (front ++ left').length + right.length := by
        rw [List.length_append]
        omega
      have hend' : front.length + n = front.length + left'.length + right'.length := by omega
      simp only [List.append_assoc] at hsort hsort' haux ⊢
      rw [hmiddle, hsort, Option.bind_some]
      simp only
      rw [hend, ← hperm_length, ← List.length_append, hsort', Option.bind_some]
      simp only
      rw [← hend, hend', List.length_append, haux]
    · refine ⟨xs, res, rfl, List.Perm.refl _, ?_, rfl⟩
      rcases xs with _ | ⟨x, _ | ⟨y, xs⟩⟩
      · exact List.Pairwise.nil
      · exact List.pairwise_singleton R x
      · simp at hn
        omega

theorem mergeSort_spec (hC : Decides Cmp R) (lst res : List α) (hres : res.length = lst.length) :
    ∃ sorted, mergeSort Cmp lst res = some sorted ∧ sorted.Perm lst ∧ sorted.Pairwise R := by
  obtain ⟨sorted, res', hsort, hperm, hsorted, -⟩ := mergeSortRange_spec hC [] lst [] res (by simpa using hres)
  simp only [List.nil_append, List.append_nil, List.length_nil, Nat.zero_add] at hsort
  exact ⟨sorted, by rw [mergeSort, hsort, Option.map_some], hperm, hsorted⟩

end MergeSort

section Main

variable {Cmp : α → α → Bool}

/-- An array of a size that is an `int`. -/
structure QVector (α : Type) where
  /-- The elements. -/
  toList : List α
  /-- `size` is an `int`. -/
  size_lt : toList.length < 2 ^ 31

/-- Both sorts sort every array by every comparison, and no callback gets an index outside of an array. -/
theorem sorts_sort (hCmp : IsComparison Cmp) (refArray : QVector α) {res : List α}
    (hres : res.length = refArray.toList.length) :
    (∃ sorted, heapSort Cmp refArray.toList = some sorted ∧ sorted.Perm refArray.toList ∧
      sorted.Pairwise (InOrder Cmp)) ∧
      ∃ sorted, mergeSort Cmp refArray.toList res = some sorted ∧ sorted.Perm refArray.toList ∧
        sorted.Pairwise (InOrder Cmp) :=
  ⟨heapSort_spec hCmp.decides refArray.size_lt.le, mergeSort_spec hCmp.decides refArray.toList res hres⟩

/-- Three numbers are sorted. -/
theorem sorts_sort_three :
    (∃ sorted, heapSort (fun x y : ℕ => decide (x < y)) [3, 1, 2] = some sorted ∧ sorted.Perm [3, 1, 2] ∧
      sorted.Pairwise (InOrder fun x y => decide (x < y))) ∧
      ∃ sorted, mergeSort (fun x y : ℕ => decide (x < y)) [3, 1, 2] [0, 0, 0] = some sorted ∧ sorted.Perm [3, 1, 2] ∧
        sorted.Pairwise (InOrder fun x y => decide (x < y)) := by
  refine sorts_sort (Or.inl ?_) ⟨[3, 1, 2], by simp⟩ (by simp)
  refine { irrefl := ?_, trans := ?_, incomp_trans := ?_ }
  · simp
  · simp
    omega
  · simp
    omega

end Main

end NeoLoader.Sorts
