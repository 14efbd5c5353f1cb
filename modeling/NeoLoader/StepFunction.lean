import Mathlib.Data.List.Sort
import Mathlib.Data.List.Chain
import Mathlib.Tactic.Linarith

/-!
# Step functions as lists of keyed cells

A right-open step function over a linear order is a list of cells. A cell
holds the exclusive upper key of a piece and the value of that piece; its
lower end is the key of the cell before it. Cutting at a key, updating the
pieces between two keys and dropping redundant cells are described here by
their effect on the value at a point. Nothing below depends on a program.
-/

namespace NeoLoader.StepFunction

variable {K V : Type*}

/-- Drop every cell whose value matches the next one, and every cell with a
fake key. The last cell always stays. -/
def fuse (same : V → V → Bool) (fake : K → Bool) : List (K × V) → List (K × V)
  | a :: b :: rest =>
    if same a.2 b.2 || fake a.1 then fuse same fake (b :: rest)
    else a :: fuse same fake (b :: rest)
  | cells => cells

section FuseShape

variable (same : V → V → Bool) (fake : K → Bool)

theorem fuse_cons_cons (a b : K × V) (rest : List (K × V)) : fuse same fake (a :: b :: rest) =
      if same a.2 b.2 || fake a.1 then fuse same fake (b :: rest)
      else a :: fuse same fake (b :: rest) := rfl

theorem fuse_singleton (a : K × V) : fuse same fake [a] = [a] := rfl

/-- Fusing only drops cells. -/
theorem fuse_sublist (cells : List (K × V)) : (fuse same fake cells).Sublist cells := by
  induction cells with
  | nil => exact List.Sublist.refl _
  | cons a cells ih =>
    cases cells with
    | nil => exact List.Sublist.refl _
    | cons b rest =>
      rw [fuse_cons_cons]
      split
      · exact ih.cons a
      · exact ih.cons_cons a

theorem fuse_ne_nil (a : K × V) (rest : List (K × V)) : fuse same fake (a :: rest) ≠ [] := by
  induction rest generalizing a with
  | nil => simp only [fuse_singleton, ne_eq, List.cons_ne_nil, not_false_eq_true]
  | cons b rest ih =>
    rw [fuse_cons_cons]
    split
    · exact ih b
    · exact List.cons_ne_nil _ _

/-- Fusing keeps the last cell. -/
theorem getLast?_fuse (cells : List (K × V)) : (fuse same fake cells).getLast? = cells.getLast? := by
  induction cells with
  | nil => rfl
  | cons a cells ih =>
    cases cells with
    | nil => rfl
    | cons b rest =>
      rw [fuse_cons_cons, List.getLast?_cons_cons]
      split
      · exact ih
      · obtain ⟨c, tail, hc⟩ := List.exists_cons_of_ne_nil (fuse_ne_nil same fake b rest)
        rw [hc, List.getLast?_cons_cons, ← hc, ih]

/-- The first cell of a fused list holds the first value, if no key is fake
and matching values are equal. -/
theorem head?_fuse_snd {a : K × V} {rest : List (K × V)}
    (hsame : ∀ c ∈ a :: rest, ∀ d ∈ a :: rest, same c.2 d.2 = true → c.2 = d.2)
    (hfake : ∀ c ∈ a :: rest, fake c.1 = false) : (fuse same fake (a :: rest)).head?.map Prod.snd = some a.2 := by
  induction rest generalizing a with
  | nil => rfl
  | cons b rest ih =>
    rw [fuse_cons_cons]
    split
    · rename_i hdrop
      rw [hfake a List.mem_cons_self, Bool.or_false] at hdrop
      have he := hsame a List.mem_cons_self b (List.mem_cons_of_mem _ List.mem_cons_self) hdrop
      rw [he]
      exact ih (fun c hc d hd => hsame c (List.mem_cons_of_mem _ hc) d (List.mem_cons_of_mem _ hd))
        (fun c hc => hfake c (List.mem_cons_of_mem _ hc))
    · rfl

variable {cells : List (K × V)}

/-- Without fake keys, no two neighbours of a fused list match. -/
theorem isChain_fuse_of_real (hsame : ∀ c ∈ cells, ∀ d ∈ cells, same c.2 d.2 = true → c.2 = d.2)
    (hfake : ∀ c ∈ cells, fake c.1 = false) : (fuse same fake cells).IsChain (fun a b => same a.2 b.2 = false) := by
  induction cells with
  | nil => exact List.IsChain.nil
  | cons a cells ih =>
    cases cells with
    | nil => exact List.IsChain.singleton a
    | cons b rest =>
      have hsame' : ∀ c ∈ b :: rest, ∀ d ∈ b :: rest, same c.2 d.2 = true → c.2 = d.2 :=
        fun c hc d hd => hsame c (List.mem_cons_of_mem _ hc) d (List.mem_cons_of_mem _ hd)
      have hfake' : ∀ c ∈ b :: rest, fake c.1 = false :=
        fun c hc => hfake c (List.mem_cons_of_mem _ hc)
      have hi := ih hsame' hfake'
      rw [fuse_cons_cons]
      split
      · exact hi
      · rename_i hkeep
        rw [Bool.or_eq_true, not_or] at hkeep
        have hhead := head?_fuse_snd same fake hsame' hfake'
        cases hf : fuse same fake (b :: rest) with
        | nil => exact List.IsChain.singleton a
        | cons c tail =>
          rw [hf] at hi hhead
          have hc : c.2 = b.2 := by
            simpa only [List.head?_cons, Option.map_some, Option.some.injEq] using hhead
          refine List.isChain_cons_cons.mpr ⟨?_, hi⟩
          rw [hc]
          exact eq_false_of_ne_true hkeep.1

/-- A cell that is left has a real key or is the last one. -/
theorem fake_of_mem_fuse {c : K × V} (hm : c ∈ fuse same fake cells) : fake c.1 = false ∨ cells.getLast? = some c := by
  induction cells with
  | nil => cases hm
  | cons a cells ih =>
    cases cells with
    | nil =>
      rw [List.mem_singleton.mp hm]
      exact Or.inr rfl
    | cons b rest =>
      rw [fuse_cons_cons] at hm
      rw [List.getLast?_cons_cons]
      split at hm
      · exact ih hm
      · rename_i hkeep
        rw [Bool.or_eq_true, not_or] at hkeep
        rcases List.mem_cons.mp hm with rfl | hm
        · exact Or.inl (eq_false_of_ne_true hkeep.2)
        · exact ih hm

/-- If only the first key can be fake, no two neighbours of a fused list
match. -/
theorem isChain_fuse (hsame : ∀ c ∈ cells, ∀ d ∈ cells, same c.2 d.2 = true → c.2 = d.2)
    (hfake : ∀ c ∈ cells.tail, fake c.1 = false) :
    (fuse same fake cells).IsChain (fun a b => same a.2 b.2 = false) := by
  cases cells with
  | nil => exact List.IsChain.nil
  | cons a cells =>
    cases cells with
    | nil => exact List.IsChain.singleton a
    | cons b rest =>
      by_cases ha : fake a.1 = true
      · rw [fuse_cons_cons, ha, Bool.or_true, if_pos rfl]
        exact isChain_fuse_of_real same fake
          (fun c hc d hd => hsame c (List.mem_cons_of_mem _ hc) d (List.mem_cons_of_mem _ hd)) hfake
      · refine isChain_fuse_of_real same fake hsame fun c hc => ?_
        rcases List.mem_cons.mp hc with rfl | hc
        · exact eq_false_of_ne_true ha
        · exact hfake c hc

/-- Fusing is local: a front part without redundant neighbours passes
through unchanged. -/
theorem fuse_append_left {front back : List (K × V)} {a : K × V}
    (h : (front ++ [a]).IsChain (fun c d => (same c.2 d.2 || fake c.1) = false)) :
    fuse same fake (front ++ a :: back) = front ++ fuse same fake (a :: back) := by
  induction front with
  | nil => rfl
  | cons c front ih =>
    cases front with
    | nil =>
      have hc := (List.isChain_cons_cons.mp h).1
      simp only [List.cons_append, List.nil_append, fuse_cons_cons, hc, Bool.false_eq_true, if_false]
    | cons d front =>
      obtain ⟨hc, ht⟩ := List.isChain_cons_cons.mp h
      simp only [List.cons_append] at ih ⊢
      rw [fuse_cons_cons, hc, if_neg Bool.false_ne_true, ih ht]

/-- A list without redundant neighbours passes through unchanged. -/
theorem fuse_eq_self (h : cells.IsChain (fun c d => (same c.2 d.2 || fake c.1) = false)) :
    fuse same fake cells = cells := by
  induction cells with
  | nil => rfl
  | cons a cells ih =>
    cases cells with
    | nil => rfl
    | cons b rest =>
      obtain ⟨hab, ht⟩ := List.isChain_cons_cons.mp h
      rw [fuse_cons_cons, hab, if_neg Bool.false_ne_true, ih ht]

/-- Fusing is local: a back part without redundant neighbours passes through
unchanged. -/
theorem fuse_append_right {front back : List (K × V)} {a : K × V}
    (h : (a :: back).IsChain (fun c d => (same c.2 d.2 || fake c.1) = false)) :
    fuse same fake (front ++ a :: back) = fuse same fake (front ++ [a]) ++ back := by
  have hback : fuse same fake (a :: back) = a :: back := fuse_eq_self same fake h
  induction front with
  | nil =>
    rw [List.nil_append, List.nil_append, hback]
    rfl
  | cons c front ih =>
    cases front with
    | nil =>
      simp only [List.cons_append, List.nil_append] at ih ⊢
      rw [fuse_cons_cons, fuse_cons_cons, hback]
      simp only [fuse_singleton]
      split <;> rfl
    | cons d front =>
      simp only [List.cons_append] at ih ⊢
      rw [fuse_cons_cons, fuse_cons_cons, ih]
      split <;> rfl

/-- Fusing is local: it is enough to fuse a window, if there are no redundant
neighbours up to its first cell and from its last cell on. -/
theorem fuse_window {front window back head last : List (K × V)} {a b : K × V}
    (ha : window = a :: last) (hb : window = head ++ [b])
    (hfront : (front ++ [a]).IsChain (fun c d => (same c.2 d.2 || fake c.1) = false))
    (hback : (b :: back).IsChain (fun c d => (same c.2 d.2 || fake c.1) = false)) :
    fuse same fake (front ++ window ++ back) = front ++ fuse same fake window ++ back := by
  have hleft : fuse same fake (front ++ window ++ back) = front ++ fuse same fake (window ++ back) := by
    rw [ha, List.append_assoc]
    exact fuse_append_left same fake hfront
  have hright : fuse same fake (window ++ back) = fuse same fake window ++ back := by
    rw [hb, List.append_assoc]
    exact fuse_append_right same fake hback
  rw [hleft, hright, List.append_assoc]

end FuseShape

variable [LinearOrder K]

/-- The keys of the cells strictly increase along the list. -/
abbrev Increasing (cells : List (K × V)) : Prop := cells.Pairwise (fun a b => a.1 < b.1)

/-- Value at a point: the value of the first cell whose key is above it. -/
def valueAt : List (K × V) → K → Option V
  | [], _ => none
  | cell :: cells, x => if x < cell.1 then some cell.2 else valueAt cells x

theorem valueAt_cons (cell : K × V) (cells : List (K × V)) (x : K) :
    valueAt (cell :: cells) x = if x < cell.1 then some cell.2 else valueAt cells x := rfl

/-- Cut the piece that contains the key in two, unless the key ends a piece. -/
def cut : List (K × V) → K → List (K × V)
  | [], _ => []
  | cell :: cells, k =>
    if k ≤ cell.1 then
      if cell.1 = k then cell :: cells else (k, cell.2) :: cell :: cells
    else cell :: cut cells k

theorem cut_cons (cell : K × V) (cells : List (K × V)) (k : K) : cut (cell :: cells) k = if k ≤ cell.1 then
        if cell.1 = k then cell :: cells else (k, cell.2) :: cell :: cells
      else cell :: cut cells k := rfl

/-- Apply an update to every cell whose key lies above the first bound and
not above the second one. -/
def updateBetween (f : V → V) (a b : K) (cells : List (K × V)) : List (K × V) :=
  cells.map fun cell => if a < cell.1 ∧ cell.1 ≤ b then (cell.1, f cell.2) else cell

/-- A point below the last key has a value. -/
theorem valueAt_isSome {cells : List (K × V)} {cell : K × V} (hm : cell ∈ cells) {x : K}
    (hx : x < cell.1) : (valueAt cells x).isSome = true := by
  induction cells with
  | nil => cases hm
  | cons c cells ih =>
    by_cases hc : x < c.1
    · simp only [valueAt_cons, if_pos hc, Option.isSome_some]
    · simp only [valueAt_cons, if_neg hc]
      rcases List.mem_cons.mp hm with rfl | hm
      · exact absurd hx hc
      · exact ih hm

theorem valueAt_append_of_le {front back : List (K × V)} {x : K}
    (h : ∀ cell ∈ front, cell.1 ≤ x) : valueAt (front ++ back) x = valueAt back x := by
  induction front with
  | nil => rfl
  | cons c front ih =>
    have hc : ¬x < c.1 := not_lt.mpr (h c List.mem_cons_self)
    rw [List.cons_append, valueAt_cons, if_neg hc]
    exact ih fun cell hm => h cell (List.mem_cons_of_mem _ hm)

theorem valueAt_eq_none {cells : List (K × V)} {x : K} (h : ∀ cell ∈ cells, cell.1 ≤ x) : valueAt cells x = none := by
  have he : valueAt (cells ++ []) x = valueAt [] x := valueAt_append_of_le h
  rwa [List.append_nil] at he

theorem exists_of_valueAt {cells : List (K × V)} {x : K} {v : V}
    (h : valueAt cells x = some v) : ∃ cell ∈ cells, x < cell.1 ∧ cell.2 = v := by
  induction cells with
  | nil => cases h
  | cons c cells ih =>
    rw [valueAt_cons] at h
    split at h
    · exact ⟨c, List.mem_cons_self, ‹_›, Option.some.inj h⟩
    · obtain ⟨cell, hm, hc⟩ := ih h
      exact ⟨cell, List.mem_cons_of_mem _ hm, hc⟩

section Cut

variable {cells : List (K × V)}

/-- Cutting keeps every cell that was there. -/
theorem mem_cut_of_mem {k : K} {cell : K × V} (hm : cell ∈ cells) : cell ∈ cut cells k := by
  induction cells with
  | nil => cases hm
  | cons c cells ih =>
    rw [cut_cons]
    split
    · split
      · exact hm
      · exact List.mem_cons_of_mem _ hm
    · rcases List.mem_cons.mp hm with rfl | hm
      · exact List.mem_cons_self
      · exact List.mem_cons_of_mem _ (ih hm)

/-- A cell of the cut list is an old one, or the new cell at the cut key
with the value of an old cell above it. -/
theorem mem_cut {k : K} {cell : K × V} (hm : cell ∈ cut cells k) :
    cell ∈ cells ∨ cell.1 = k ∧ ∃ old ∈ cells, k < old.1 ∧ old.2 = cell.2 := by
  induction cells with
  | nil => cases hm
  | cons c cells ih =>
    rw [cut_cons] at hm
    split at hm
    · rename_i hk
      split at hm
      · exact Or.inl hm
      · rename_i hne
        rcases List.mem_cons.mp hm with rfl | hm
        · exact Or.inr ⟨rfl, c, List.mem_cons_self, lt_of_le_of_ne hk (Ne.symm hne), rfl⟩
        · exact Or.inl hm
    · rcases List.mem_cons.mp hm with rfl | hm
      · exact Or.inl List.mem_cons_self
      · rcases ih hm with h | ⟨he, old, ho, h⟩
        · exact Or.inl (List.mem_cons_of_mem _ h)
        · exact Or.inr ⟨he, old, List.mem_cons_of_mem _ ho, h⟩

/-- After the cut the key is present, if some key reaches it. -/
theorem exists_key_cut {k : K} {cell : K × V} (hm : cell ∈ cells) (hk : k ≤ cell.1) : ∃ c ∈ cut cells k, c.1 = k := by
  induction cells with
  | nil => cases hm
  | cons c cells ih =>
    rw [cut_cons]
    split
    · split
      · exact ⟨c, List.mem_cons_self, ‹_›⟩
      · exact ⟨(k, c.2), List.mem_cons_self, rfl⟩
    · rename_i hc
      rcases List.mem_cons.mp hm with rfl | hm
      · exact absurd hk hc
      · obtain ⟨d, hd, he⟩ := ih hm
        exact ⟨d, List.mem_cons_of_mem _ hd, he⟩

/-- Cutting keeps the keys strictly increasing. -/
theorem increasing_cut (h : Increasing cells) (k : K) : Increasing (cut cells k) := by
  induction cells with
  | nil => exact h
  | cons c cells ih =>
    obtain ⟨hc, ht⟩ := List.pairwise_cons.mp h
    rw [cut_cons]
    split
    · rename_i hk
      split
      · exact h
      · rename_i hne
        have hlt : k < c.1 := lt_of_le_of_ne hk (Ne.symm hne)
        refine List.pairwise_cons.mpr ⟨?_, h⟩
        intro d hd
        rcases List.mem_cons.mp hd with rfl | hd
        · exact hlt
        · exact hlt.trans (hc d hd)
    · rename_i hk
      refine List.pairwise_cons.mpr ⟨?_, ih ht⟩
      intro d hd
      rcases mem_cut hd with hd | ⟨he, -⟩
      · exact hc d hd
      · rw [he]
        exact not_le.mp hk

/-- A cut changes no value. -/
theorem valueAt_cut (cells : List (K × V)) (k x : K) : valueAt (cut cells k) x = valueAt cells x := by
  induction cells with
  | nil => rfl
  | cons c cells ih =>
    rw [cut_cons]
    split
    · rename_i hk
      split
      · rfl
      · simp only [valueAt_cons]
        by_cases hx : x < k
        · rw [if_pos hx, if_pos (hx.trans_le hk)]
        · rw [if_neg hx]
    · simp only [valueAt_cons, ih]

/-- A cut at a key not above the last one keeps the last cell. -/
theorem getLast?_cut (cells : List (K × V)) (k : K) : (cut cells k).getLast? = cells.getLast? := by
  induction cells with
  | nil => rfl
  | cons c cells ih =>
    rw [cut_cons]
    split
    · split
      · rfl
      · rw [List.getLast?_cons_cons]
    · cases hc : cells with
      | nil => rfl
      | cons d rest =>
        rw [hc] at ih
        have hne : cut (d :: rest) k ≠ [] := fun h => by
          have hm : d ∈ cut (d :: rest) k := mem_cut_of_mem List.mem_cons_self
          rw [h] at hm
          cases hm
        obtain ⟨e, tail, he⟩ := List.exists_cons_of_ne_nil hne
        rw [he, List.getLast?_cons_cons, ← he, ih, List.getLast?_cons_cons]

/-- A cut leaves the cells below it alone. -/
theorem takeWhile_cut (cells : List (K × V)) {a k : K} (hak : a ≤ k) :
    (cut cells k).takeWhile (fun c => c.1 < a) = cells.takeWhile (fun c => c.1 < a) := by
  induction cells with
  | nil => rfl
  | cons c cells ih =>
    rw [cut_cons]
    split
    · rename_i hk
      split
      · rfl
      · have hc : ¬c.1 < a := not_lt.mpr (hak.trans hk)
        have hka : ¬k < a := not_lt.mpr hak
        simp only [List.takeWhile_cons, hka, hc, decide_false, Bool.false_eq_true, if_false]
    · simp only [List.takeWhile_cons, ih]

/-- A cut leaves the cells above it alone. -/
theorem dropWhile_cut (cells : List (K × V)) {b k : K} (hkb : k ≤ b) :
    (cut cells k).dropWhile (fun c => c.1 ≤ b) = cells.dropWhile (fun c => c.1 ≤ b) := by
  induction cells with
  | nil => rfl
  | cons c cells ih =>
    rw [cut_cons]
    split
    · split
      · rfl
      · rw [List.dropWhile_cons, if_pos (by simpa only [decide_eq_true_eq] using hkb)]
    · rename_i hk
      have hc : c.1 ≤ b := (not_le.mp hk).le.trans hkb
      simp only [List.dropWhile_cons, hc, decide_true, if_true, ih]

end Cut

section Update

theorem map_fst_updateBetween (f : V → V) (a b : K) (cells : List (K × V)) :
    (updateBetween f a b cells).map Prod.fst = cells.map Prod.fst := by
  rw [updateBetween, List.map_map]
  apply List.map_congr_left
  intro cell _
  simp only [Function.comp_apply]
  split <;> rfl

theorem increasing_updateBetween {cells : List (K × V)} (h : Increasing cells) (f : V → V)
    (a b : K) : Increasing (updateBetween f a b cells) := by
  have hk : (cells.map Prod.fst).Pairwise (· < ·) := List.pairwise_map.mpr h
  rw [← map_fst_updateBetween f a b cells] at hk
  exact List.pairwise_map.mp hk

/-- If both bounds are keys, the update acts on exactly the points between
them. -/
theorem valueAt_updateBetween {cells : List (K × V)} (h : Increasing cells) (f : V → V) {a b : K}
    (ha : ∃ c ∈ cells, c.1 = a) (hb : ∃ c ∈ cells, c.1 = b) (x : K) :
    valueAt (updateBetween f a b cells) x = if a ≤ x ∧ x < b then (valueAt cells x).map f else valueAt cells x := by
  have hfirst : ∀ (front : List (K × V)) (c : K × V) (back : List (K × V)),
      cells = front ++ c :: back → (∀ d ∈ front, d.1 ≤ x) → x < c.1 →
      ((a < c.1 ∧ c.1 ≤ b) ↔ (a ≤ x ∧ x < b)) := by
    intro front c back hcells hfront hx
    have hmin : ∀ k, (∃ d ∈ cells, d.1 = k) → x < k → c.1 ≤ k := by
      rintro k ⟨d, hd, rfl⟩ hk
      rw [hcells] at hd h
      rcases List.mem_append.mp hd with hd | hd
      · exact absurd hk (not_lt.mpr (hfront d hd))
      · rcases List.mem_cons.mp hd with rfl | hd
        · exact le_rfl
        · have hp := (List.pairwise_append.mp h).2.1
          exact ((List.pairwise_cons.mp hp).1 d hd).le
    constructor
    · rintro ⟨hac, hcb⟩
      refine ⟨?_, hx.trans_le hcb⟩
      by_contra hax
      exact absurd (hmin a ha (not_le.mp hax)) (not_le.mpr hac)
    · rintro ⟨hax, hxb⟩
      exact ⟨hax.trans_lt hx, hmin b hb hxb⟩
  -- walk to the first cell above the point, carrying the cells already passed
  have hwalk : ∀ front back : List (K × V), cells = front ++ back → (∀ d ∈ front, d.1 ≤ x) →
      valueAt (updateBetween f a b back) x = if a ≤ x ∧ x < b then (valueAt back x).map f else valueAt back x := by
    intro front back
    induction back generalizing front with
    | nil =>
      intro _ _
      simp only [updateBetween, List.map_nil, valueAt, Option.map_none, ite_self]
    | cons c back ih =>
      intro hcells hfront
      by_cases hx : x < c.1
      · have hiff := hfirst front c back hcells hfront hx
        simp only [updateBetween, List.map_cons, valueAt, if_pos hx]
        by_cases hin : a < c.1 ∧ c.1 ≤ b
        · simp only [if_pos hin, if_pos (hiff.mp hin), if_pos hx, Option.map_some]
        · simp only [if_neg hin, if_neg fun h => hin (hiff.mpr h), if_pos hx]
      · have hnext := ih (front ++ [c]) (by rw [hcells, List.append_assoc]; rfl) (by
          intro d hd
          rcases List.mem_append.mp hd with hd | hd
          · exact hfront d hd
          · rw [List.mem_singleton.mp hd]
            exact not_lt.mp hx)
        have hskip : ∀ u : K × V, u.1 = c.1 → ∀ l : List (K × V), valueAt (u :: l) x = valueAt l x := by
          intro u hu l
          rw [valueAt_cons, if_neg (by rw [hu]; exact hx)]
        rw [hskip c rfl]
        rw [← hnext, updateBetween, List.map_cons, ← updateBetween]
        apply hskip
        split <;> rfl
  exact hwalk [] cells rfl (fun d hd => by cases hd)

/-- An update leaves the cells below it alone. -/
theorem takeWhile_updateBetween (f : V → V) {a b k : K} (hka : k ≤ a) (cells : List (K × V)) :
    (updateBetween f a b cells).takeWhile (fun c => c.1 < k) = cells.takeWhile (fun c => c.1 < k) := by
  induction cells with
  | nil => rfl
  | cons c cells ih =>
    rw [updateBetween] at ih ⊢
    rw [List.map_cons, List.takeWhile_cons, List.takeWhile_cons, ih]
    by_cases hc : c.1 < k
    · have hout : ¬(a < c.1 ∧ c.1 ≤ b) := fun h => absurd (hc.trans_le hka) (not_lt.mpr h.1.le)
      simp only [if_neg hout, hc, decide_true, if_true]
    · by_cases hin : a < c.1 ∧ c.1 ≤ b
      · simp only [if_pos hin, hc, decide_false, Bool.false_eq_true, if_false]
      · simp only [if_neg hin, hc, decide_false, Bool.false_eq_true, if_false]

/-- An update leaves the cells above it alone. -/
theorem dropWhile_updateBetween {cells : List (K × V)} (h : Increasing cells) (f : V → V)
    (a b : K) : (updateBetween f a b cells).dropWhile (fun c => c.1 ≤ b) = cells.dropWhile (fun c => c.1 ≤ b) := by
  induction cells with
  | nil => rfl
  | cons c cells ih =>
    obtain ⟨hc, ht⟩ := List.pairwise_cons.mp h
    by_cases hb : c.1 ≤ b
    · have hi := ih ht
      rw [updateBetween] at hi ⊢
      have hskip : ∀ u : K × V, u.1 ≤ b → ∀ l : List (K × V),
          (u :: l).dropWhile (fun c => c.1 ≤ b) = l.dropWhile (fun c => c.1 ≤ b) :=
        fun u hu l => List.dropWhile_cons_of_pos (decide_eq_true hu)
      rw [List.map_cons, hskip c hb, ← hi]
      apply hskip
      split <;> exact hb
    · have hsame : updateBetween f a b (c :: cells) = c :: cells := by
        rw [updateBetween]
        conv_rhs => rw [← List.map_id (c :: cells)]
        apply List.map_congr_left
        intro d hd
        have hbd : b < d.1 := by
          rcases List.mem_cons.mp hd with rfl | hd
          · exact not_le.mp hb
          · exact (not_le.mp hb).trans (hc d hd)
        rw [if_neg (fun h => absurd h.2 (not_le.mpr hbd)), id]
      rw [hsame]

end Update

section Fuse

variable (same : V → V → Bool) (fake : K → Bool)

theorem increasing_fuse {cells : List (K × V)} (h : Increasing cells) : Increasing (fuse same fake cells) :=
  List.Pairwise.sublist (fuse_sublist same fake cells) h

/-- Fusing changes no value, if matching values are equal and no fake key is
above the point. -/
theorem valueAt_fuse {cells : List (K × V)} (h : Increasing cells) {x : K}
    (hsame : ∀ a ∈ cells, ∀ b ∈ cells, same a.2 b.2 = true → a.2 = b.2)
    (hfake : ∀ a ∈ cells, fake a.1 = true → a.1 ≤ x) : valueAt (fuse same fake cells) x = valueAt cells x := by
  induction cells with
  | nil => rfl
  | cons a cells ih =>
    cases cells with
    | nil => rfl
    | cons b rest =>
      obtain ⟨ha, ht⟩ := List.pairwise_cons.mp h
      have hi := ih ht (fun c hc d hd => hsame c (List.mem_cons_of_mem _ hc) d (List.mem_cons_of_mem _ hd))
        (fun c hc => hfake c (List.mem_cons_of_mem _ hc))
      have hab : a.1 < b.1 := ha b List.mem_cons_self
      rw [fuse_cons_cons]
      split
      · rename_i hdrop
        rw [hi]
        by_cases hx : x < a.1
        · rcases Bool.or_eq_true_iff.mp hdrop with hs | hf
          · have he := hsame a List.mem_cons_self b (List.mem_cons_of_mem _ List.mem_cons_self) hs
            rw [valueAt_cons, if_pos (hx.trans hab), valueAt_cons, if_pos hx, he]
          · exact absurd hx (not_lt.mpr (hfake a List.mem_cons_self hf))
        · conv_rhs => rw [valueAt_cons, if_neg hx]
      · simp only [valueAt_cons, hi]

end Fuse

section Values

/-- At its own key a cell is left for one with another value. -/
theorem valueAt_key_ne {cell : K × V} {cells : List (K × V)} (h : Increasing (cell :: cells))
    (hne : (cell :: cells).IsChain fun a b => a.2 ≠ b.2) : valueAt (cell :: cells) cell.1 ≠ some cell.2 := by
  rw [valueAt_cons, if_neg (lt_irrefl _)]
  cases cells with
  | nil => exact nofun
  | cons next cells =>
    rw [valueAt_cons, if_pos (List.rel_of_pairwise_cons h List.mem_cons_self)]
    exact fun heq => (List.isChain_cons_cons.mp hne).1 (Option.some.inj heq).symm

/-- Cells without equal neighbours are determined by the values at all points. -/
theorem eq_of_valueAt {cells cells' : List (K × V)} {lo : K} (h : Increasing cells) (h' : Increasing cells')
    (hlo : ∀ cell ∈ cells, lo < cell.1) (hlo' : ∀ cell ∈ cells', lo < cell.1)
    (hne : cells.IsChain fun a b => a.2 ≠ b.2) (hne' : cells'.IsChain fun a b => a.2 ≠ b.2)
    (hsame : ∀ x, lo ≤ x → valueAt cells x = valueAt cells' x) : cells = cells' := by
  induction cells generalizing lo cells' with
  | nil =>
    cases cells' with
    | nil => rfl
    | cons cell' cells' =>
      have hfirst := hsame lo le_rfl
      rw [valueAt_cons, if_pos (hlo' cell' List.mem_cons_self)] at hfirst
      cases hfirst
  | cons cell cells ih =>
    cases cells' with
    | nil =>
      have hfirst := hsame lo le_rfl
      rw [valueAt_cons, if_pos (hlo cell List.mem_cons_self)] at hfirst
      cases hfirst
    | cons cell' cells' =>
      have hkey := hlo cell List.mem_cons_self
      have hkey' := hlo' cell' List.mem_cons_self
      have hvalue : cell.2 = cell'.2 := by
        have hfirst := hsame lo le_rfl
        rw [valueAt_cons, valueAt_cons, if_pos hkey, if_pos hkey'] at hfirst
        exact Option.some.inj hfirst
      rcases lt_trichotomy cell.1 cell'.1 with hlt | heq | hlt
      · refine absurd ((hsame cell.1 hkey.le).trans ?_) (valueAt_key_ne h hne)
        rw [valueAt_cons, if_pos hlt, hvalue]
      · obtain rfl : cell = cell' := Prod.ext heq hvalue
        obtain ⟨hall, hrest⟩ := List.pairwise_cons.mp h
        obtain ⟨hall', hrest'⟩ := List.pairwise_cons.mp h'
        refine congrArg (cell :: ·) (ih hrest hrest' hall hall' hne.tail hne'.tail fun x hx => ?_)
        have hpoint := hsame x (hkey.le.trans hx)
        rwa [valueAt_cons, valueAt_cons, if_neg hx.not_gt, if_neg hx.not_gt] at hpoint
      · refine absurd ((hsame cell'.1 hkey'.le).symm.trans ?_) (valueAt_key_ne h' hne')
        rw [valueAt_cons, if_pos hlt, hvalue]

end Values

end NeoLoader.StepFunction
