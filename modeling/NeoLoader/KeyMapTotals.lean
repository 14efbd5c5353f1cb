import Mathlib.Algebra.Order.BigOperators.Group.List
import Mathlib.Tactic.Ring
import Mathlib.Tactic.Linarith
import NeoLoader.KeyMap

/-!
# Looking up, changing and summing the entries of a map

What an entry is after another one was put in, taken out or changed, and what that does
to a sum over all entries. Counting entries is summing ones.
-/

namespace NeoLoader.KeyMap.OrderedMap

variable {κ ν : Type*} [LinearOrder κ]

/-- The value at a key. -/
def get (m : OrderedMap κ ν) (k : κ) : Option ν :=
  (m.entries.find? fun e => e.1 = k).map Prod.snd

/-- The map without some of its entries. -/
def filter (m : OrderedMap κ ν) (p : κ → ν → Bool) : OrderedMap κ ν :=
  ⟨m.entries.filter fun e => p e.1 e.2, m.sorted.filter _⟩

/-- The map without a key. -/
def erase (m : OrderedMap κ ν) (k : κ) : OrderedMap κ ν := m.filter fun k' _ => k' ≠ k

/-- The map with all values changed. -/
def mapEntries (m : OrderedMap κ ν) (f : κ → ν → ν) : OrderedMap κ ν :=
  ⟨m.entries.map fun e => (e.1, f e.1 e.2), List.Pairwise.map _ (fun _ _ h => h) m.sorted⟩

/-- The map with the value at a key changed, if there is one. -/
def modify (m : OrderedMap κ ν) (k : κ) (f : ν → ν) : OrderedMap κ ν :=
  m.mapEntries fun k' v => if k' = k then f v else v

/-- The sum of a quantity over all entries. -/
def total (m : OrderedMap κ ν) (f : κ → ν → ℤ) : ℤ := (m.entries.map fun e => f e.1 e.2).sum

variable {m : OrderedMap κ ν} {k : κ}

/-- A key has the value of its entry. -/
theorem get_eq_some {v : ν} : m.get k = some v ↔ (k, v) ∈ m.entries := by
  unfold get
  constructor
  · intro h
    obtain ⟨e, he, rfl⟩ := Option.map_eq_some_iff.mp h
    have hkey : e.1 = k := by simpa using List.find?_some he
    rw [← hkey]
    exact List.mem_of_find?_eq_some he
  · intro h
    cases hfind : m.entries.find? fun e => e.1 = k with
    | none =>
      have hkey : ¬ (k, v).1 = k := by simpa using List.find?_eq_none.mp hfind (k, v) h
      exact absurd rfl hkey
    | some e =>
      have hkey : e.1 = k := by simpa using List.find?_some hfind
      have he := List.mem_of_find?_eq_some hfind
      have hsame : e = (k, v) := List.inj_on_of_nodup_map m.nodup_keys he h hkey
      rw [hsame]
      rfl

theorem get_eq_none : m.get k = none ↔ ∀ v, (k, v) ∉ m.entries := by
  simp only [← get_eq_some]
  exact Option.eq_none_iff_forall_ne_some

theorem get_congr {m m' : OrderedMap κ ν} (h : ∀ v, (k, v) ∈ m.entries ↔ (k, v) ∈ m'.entries) : m.get k = m'.get k := by
  refine Option.ext fun v => ?_
  exact get_eq_some.trans ((h v).trans get_eq_some.symm)

@[simp] theorem get_insert_self (m : OrderedMap κ ν) (k : κ) (v : ν) : (m.insert k v).get k = some v :=
  get_eq_some.mpr (mem_insert.mpr (Or.inl rfl))

theorem get_insert_of_ne (m : OrderedMap κ ν) {k k' : κ} (v : ν) (h : k' ≠ k) : (m.insert k v).get k' = m.get k' := by
  refine get_congr fun v' => ?_
  rw [mem_insert]
  simp [h]

@[simp] theorem get_empty (k : κ) : (empty : OrderedMap κ ν).get k = none := rfl

theorem get_filter (m : OrderedMap κ ν) (p : κ → ν → Bool) (k : κ) : (m.filter p).get k = (m.get k).filter (p k) := by
  refine Option.ext fun v => ?_
  rw [get_eq_some, filter, List.mem_filter, Option.filter_eq_some_iff, get_eq_some]

@[simp] theorem get_erase_self (m : OrderedMap κ ν) (k : κ) : (m.erase k).get k = none := by
  rw [erase, get_filter]
  cases m.get k with
  | none => rfl
  | some v => simp

theorem get_erase_of_ne (m : OrderedMap κ ν) {k k' : κ} (h : k' ≠ k) : (m.erase k).get k' = m.get k' := by
  rw [erase, get_filter]
  cases m.get k' with
  | none => rfl
  | some v => simp [h]

/-- The value at a key after all were changed. -/
@[simp] theorem get_mapEntries (m : OrderedMap κ ν) (f : κ → ν → ν) (k : κ) :
    (m.mapEntries f).get k = (m.get k).map (f k) := by
  refine Option.ext fun v => ?_
  rw [get_eq_some, Option.map_eq_some_iff, mapEntries, List.mem_map]
  constructor
  · rintro ⟨e, he, heq⟩
    injection heq with hkey hvalue
    subst hkey
    exact ⟨e.2, get_eq_some.mpr he, hvalue⟩
  · rintro ⟨v', hv', rfl⟩
    exact ⟨(k, v'), get_eq_some.mp hv', rfl⟩

@[simp] theorem get_modify_self (m : OrderedMap κ ν) (k : κ) (f : ν → ν) : (m.modify k f).get k = (m.get k).map f := by
  simp [modify]

theorem get_modify_of_ne (m : OrderedMap κ ν) {k k' : κ} (f : ν → ν) (h : k' ≠ k) :
    (m.modify k f).get k' = m.get k' := by
  simp [modify, h]

@[simp] theorem isSome_get_modify (m : OrderedMap κ ν) (k k' : κ) (f : ν → ν) :
    ((m.modify k f).get k').isSome = (m.get k').isSome := by
  by_cases h : k' = k
  · rw [h, get_modify_self, Option.isSome_map]
  · rw [get_modify_of_ne _ _ h]

theorem hasKey_iff_get : m.HasKey k ↔ ∃ v, m.get k = some v := by
  constructor
  · rintro ⟨e, he, rfl⟩
    exact ⟨e.2, get_eq_some.mpr he⟩
  · rintro ⟨v, hv⟩
    exact ⟨(k, v), get_eq_some.mp hv, rfl⟩

/-- Maps with the same values at all keys are the same. -/
theorem ext_get {m m' : OrderedMap κ ν} (h : ∀ k, m.get k = m'.get k) : m = m' := by
  have hmem : ∀ e : κ × ν, e ∈ m.entries ↔ e ∈ m'.entries := by
    intro e
    rw [← get_eq_some, ← get_eq_some, h]
  have hperm : m.entries.Perm m'.entries :=
    (List.perm_ext_iff_of_nodup m.nodup_keys.of_map m'.nodup_keys.of_map).mpr hmem
  have hentries : m.entries = m'.entries :=
    hperm.eq_of_pairwise (fun a b _ _ hab hba => absurd hba hab.not_gt) m.sorted m'.sorted
  cases m
  cases m'
  simpa using hentries

variable {μ : Type*}

/-- The value at a key of a map with other values. -/
@[simp] theorem get_mapValues (f : ν → μ) (m : OrderedMap κ ν) (k : κ) : (m.mapValues f).get k = (m.get k).map f := by
  refine Option.ext fun v => ?_
  rw [get_eq_some, Option.map_eq_some_iff, mapValues, List.mem_map]
  constructor
  · rintro ⟨e, he, heq⟩
    injection heq with hkey hvalue
    subst hkey
    exact ⟨e.2, get_eq_some.mpr he, hvalue⟩
  · rintro ⟨v', hv', rfl⟩
    exact ⟨(k, v'), get_eq_some.mp hv', rfl⟩

theorem mapValues_insert (f : ν → μ) (m : OrderedMap κ ν) (k : κ) (v : ν) :
    (m.insert k v).mapValues f = (m.mapValues f).insert k (f v) := by
  refine ext_get fun k' => ?_
  by_cases hk : k' = k
  · subst hk
    simp
  · rw [get_mapValues, get_insert_of_ne m v hk, get_insert_of_ne _ _ hk, get_mapValues]

theorem insert_eq_self {v : ν} (h : m.get k = some v) : m.insert k v = m := by
  refine ext_get fun k' => ?_
  by_cases hk : k' = k
  · subst hk
    rw [get_insert_self, h]
  · rw [get_insert_of_ne m v hk]

theorem mapValues_filter (f : ν → μ) (m : OrderedMap κ ν) (p : κ → μ → Bool) :
    (m.filter fun k v => p k (f v)).mapValues f = (m.mapValues f).filter p := by
  refine ext_get fun k => ?_
  rw [get_mapValues, get_filter, get_filter, get_mapValues]
  cases m.get k with
  | none => rfl
  | some v =>
    by_cases hv : p k (f v) = true
    · simp [Option.filter, hv]
    · simp [Option.filter, hv]

@[simp] theorem size_mapValues (f : ν → μ) (m : OrderedMap κ ν) : (m.mapValues f).size = m.size :=
  List.length_map _

@[simp] theorem total_empty (f : κ → ν → ℤ) : (empty : OrderedMap κ ν).total f = 0 := rfl

/-- Putting an entry in adds its quantity, and takes away the one it replaces. -/
theorem total_insert (m : OrderedMap κ ν) (k : κ) (v : ν) (f : κ → ν → ℤ) :
    (m.insert k v).total f = m.total f - (m.get k).elim 0 (f k) + f k v := by
  obtain ⟨l, hl⟩ := m
  unfold total insert get
  dsimp only
  induction l with
  | nil => simp [insertEntry]
  | cons a l ih =>
    rw [List.pairwise_cons] at hl
    have ih := ih hl.2
    rw [insertEntry]
    split_ifs with hlt hgt
    · have hnone : (a :: l).find? (fun e => decide (e.1 = k)) = none := by
        refine List.find?_eq_none.mpr fun e he => ?_
        rcases List.mem_cons.mp he with rfl | he
        · simpa using hlt.ne'
        · simpa using (hlt.trans (hl.1 e he)).ne'
      rw [hnone]
      simp only [List.map_cons, List.sum_cons, Option.map_none, Option.elim_none]
      ring
    · rw [List.find?_cons_of_neg (by simpa using hgt.ne)]
      simp only [List.map_cons, List.sum_cons]
      rw [ih]
      ring
    · have hsame : a.1 = k := le_antisymm (not_lt.mp hlt) (not_lt.mp hgt)
      rw [List.find?_cons_of_pos (by simpa using hsame)]
      simp only [List.map_cons, List.sum_cons, Option.map_some, Option.elim_some, hsame]
      ring

/-- Taking a key out takes its quantity away. -/
theorem total_erase (m : OrderedMap κ ν) (k : κ) (f : κ → ν → ℤ) :
    (m.erase k).total f = m.total f - (m.get k).elim 0 (f k) := by
  obtain ⟨l, hl⟩ := m
  unfold total erase filter get
  dsimp only
  induction l with
  | nil => simp
  | cons a l ih =>
    rw [List.pairwise_cons] at hl
    have ih := ih hl.2
    by_cases ha : a.1 = k
    · have hall : l.filter (fun e => decide (e.1 ≠ k)) = l :=
        List.filter_eq_self.mpr fun e he => by simpa [← ha] using (hl.1 e he).ne'
      rw [List.find?_cons_of_pos (by simpa using ha), List.filter_cons_of_neg (by simpa using ha), hall]
      simp [ha]
    · rw [List.find?_cons_of_neg (by simpa using ha), List.filter_cons_of_pos (by simpa using ha)]
      simp only [List.map_cons, List.sum_cons]
      rw [ih]
      ring

/-- Changing the value at a key changes the sum by as much. -/
theorem total_modify (m : OrderedMap κ ν) (k : κ) (g : ν → ν) (f : κ → ν → ℤ) : (m.modify k g).total f =
      m.total f + (m.get k).elim 0 fun v => f k (g v) - f k v := by
  obtain ⟨l, hl⟩ := m
  unfold total modify mapEntries get
  dsimp only
  induction l with
  | nil => simp
  | cons a l ih =>
    rw [List.pairwise_cons] at hl
    have ih := ih hl.2
    by_cases ha : a.1 = k
    · have hall : (l.map fun e => (e.1, if e.1 = k then g e.2 else e.2)) = l := by
        refine (List.map_congr_left fun e he => ?_).trans l.map_id
        rw [if_neg (by rw [← ha]; exact (hl.1 e he).ne')]
        rfl
      rw [List.find?_cons_of_pos (by simpa using ha), List.map_cons, hall]
      simp only [List.map_cons, List.sum_cons, Option.map_some, Option.elim_some, ha, if_true]
      ring
    · rw [List.find?_cons_of_neg (by simpa using ha)]
      simp only [List.map_cons, List.sum_cons, if_neg ha]
      rw [ih]
      ring

theorem total_congr {f g : κ → ν → ℤ} (h : ∀ k v, m.get k = some v → f k v = g k v) : m.total f = m.total g := by
  unfold total
  congr 1
  exact List.map_congr_left fun e he => h e.1 e.2 (get_eq_some.mpr he)

variable {f : κ → ν → ℤ}

theorem total_mapEntries {g : κ → ν → ν} (h : ∀ k v, m.get k = some v → f k (g k v) = f k v) :
    (m.mapEntries g).total f = m.total f := by
  unfold total mapEntries
  rw [List.map_map]
  congr 1
  exact List.map_congr_left fun e he => h e.1 e.2 (get_eq_some.mpr he)

/-- The entries left out of a sum whose quantity is nothing do not matter. -/
theorem total_filter {p : κ → ν → Bool} (h : ∀ k v, m.get k = some v → p k v = false → f k v = 0) :
    (m.filter p).total f = m.total f := by
  have hmem : ∀ e ∈ m.entries, p e.1 e.2 = false → f e.1 e.2 = 0 := fun e he =>
    h e.1 e.2 (get_eq_some.mpr he)
  unfold total filter
  dsimp only
  generalize m.entries = l at hmem
  induction l with
  | nil => rfl
  | cons a l ih =>
    have ih := ih fun e he => hmem e (List.mem_cons_of_mem _ he)
    cases ha : p a.1 a.2 with
    | true => rw [List.filter_cons_of_pos (by simpa using ha), List.map_cons, List.map_cons,
        List.sum_cons, List.sum_cons, ih]
    | false => rw [List.filter_cons_of_neg (by simpa using ha), List.map_cons, List.sum_cons, ih,
        hmem a List.mem_cons_self ha, zero_add]

theorem total_nonneg (h : ∀ k v, m.get k = some v → 0 ≤ f k v) : 0 ≤ m.total f := by
  refine List.sum_nonneg fun x hx => ?_
  obtain ⟨e, he, rfl⟩ := List.mem_map.mp hx
  exact h e.1 e.2 (get_eq_some.mpr he)

/-- The entries after one was put in at a new key. -/
theorem entries_insert_perm (v : ν) (h : ∀ e ∈ m.entries, e.1 ≠ k) :
    (m.insert k v).entries.Perm ((k, v) :: m.entries) := by
  unfold insert
  dsimp only
  generalize m.entries = l at h
  induction l with
  | nil => exact List.Perm.refl _
  | cons a l ih =>
    rw [List.forall_mem_cons] at h
    rw [insertEntry]
    split_ifs with hlt hgt
    · exact List.Perm.refl _
    · exact ((ih h.2).cons a).trans (List.Perm.swap _ _ _)
    · exact absurd (le_antisymm (not_lt.mp hlt) (not_lt.mp hgt)) h.1

/-- The entries before one was taken out. -/
theorem entries_erase_perm {e : κ × ν} (h : e ∈ m.entries) : m.entries.Perm (e :: (m.erase e.1).entries) := by
  obtain ⟨l, hl⟩ := m
  unfold erase filter
  dsimp only at h ⊢
  induction l with
  | nil => simp at h
  | cons a l ih =>
    rw [List.pairwise_cons] at hl
    rcases List.mem_cons.mp h with rfl | hmem
    · have hall : l.filter (fun b => decide (b.1 ≠ e.1)) = l :=
        List.filter_eq_self.mpr fun b hb => by simpa using (hl.1 b hb).ne'
      rw [List.filter_cons_of_neg (by simp), hall]
    · have hne : a.1 ≠ e.1 := (hl.1 e hmem).ne
      rw [List.filter_cons_of_pos (by simpa using hne)]
      exact ((ih hl.2 hmem).cons a).trans (List.Perm.swap _ _ _)

theorem size_insert_le (m : OrderedMap κ ν) (k : κ) (v : ν) : (m.insert k v).size ≤ m.size + 1 := by
  unfold insert size
  dsimp only
  induction m.entries with
  | nil => simp [insertEntry]
  | cons a l ih =>
    rw [insertEntry]
    split_ifs <;> simp
    simpa using ih

end NeoLoader.KeyMap.OrderedMap
