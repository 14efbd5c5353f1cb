import Mathlib.Data.List.Sort
import Mathlib.Order.Lattice

/-!
# Maps with several values at a key

The entries are in the order of their keys, and those of one key are next to each other. A position is
found at the first entry of a key, and a loop walks from there over the entries that it does not look for.
-/

namespace NeoLoader.MultiMap

variable {κ ν : Type*} [LinearOrder κ]

/-- Entries in the order of their keys. -/
structure OrderedMultiMap (κ ν : Type*) [LinearOrder κ] where
  /-- The entries from the smallest key on. -/
  entries : List (κ × ν)
  /-- No key is larger than the next one. -/
  sorted : (entries.map Prod.fst).Pairwise (· ≤ ·)

/-- The position of the first entry of a key, or the end. -/
def find (m : OrderedMultiMap κ ν) (k : κ) : ℕ := m.entries.findIdx fun e => e.1 = k

/-- The position behind the entries that a condition holds for, from some position on. -/
def walk (m : OrderedMultiMap κ ν) (cond : κ × ν → Bool) (i : ℕ) : ℕ :=
  i + (m.entries.drop i).findIdx fun e => !cond e

/-- Put an entry behind those of its key. -/
def insertEntry (k : κ) (v : ν) : List (κ × ν) → List (κ × ν)
  | [] => [(k, v)]
  | e :: l => if k < e.1 then (k, v) :: e :: l else e :: insertEntry k v l

theorem map_insertEntry (k : κ) (v : ν) (l : List (κ × ν)) :
    ((insertEntry k v l).map Prod.fst).Perm (k :: l.map Prod.fst) := by
  induction l with
  | nil => simp [insertEntry]
  | cons e l ih =>
    rw [insertEntry]
    split
    · simp
    · exact (ih.cons e.1).trans (List.Perm.swap k e.1 _)

/-- The entries stay in order. -/
theorem pairwise_insertEntry (k : κ) (v : ν) {l : List (κ × ν)} (h : (l.map Prod.fst).Pairwise (· ≤ ·)) :
    ((insertEntry k v l).map Prod.fst).Pairwise (· ≤ ·) := by
  induction l with
  | nil => simp [insertEntry]
  | cons e l ih =>
    rw [List.map_cons, List.pairwise_cons] at h
    rw [insertEntry]
    split
    · rename_i hlt
      simp only [List.map_cons, List.pairwise_cons, List.mem_cons]
      refine ⟨?_, h⟩
      rintro a (rfl | ha)
      · exact hlt.le
      · exact hlt.le.trans (h.1 a ha)
    · rename_i hge
      rw [List.map_cons, List.pairwise_cons]
      refine ⟨?_, ih h.2⟩
      intro a ha
      rcases List.mem_cons.mp ((map_insertEntry k v l).mem_iff.mp ha) with rfl | ha
      · exact not_lt.mp hge
      · exact h.1 a ha

/-- The map with another entry. -/
def insert (m : OrderedMultiMap κ ν) (k : κ) (v : ν) : OrderedMultiMap κ ν :=
  ⟨insertEntry k v m.entries, pairwise_insertEntry k v m.sorted⟩

/-- The map with another value at a position. -/
def modify (m : OrderedMultiMap κ ν) (i : ℕ) (f : ν → ν) : OrderedMultiMap κ ν where
  entries := m.entries.modify i fun e => (e.1, f e.2)
  sorted := by
    have hkeys : (m.entries.modify i fun e => (e.1, f e.2)).map Prod.fst = m.entries.map Prod.fst := by
      apply List.ext_getElem?
      intro j
      rw [List.getElem?_map, List.getElem?_modify, List.getElem?_map]
      split <;> cases m.entries[j]? <;> rfl
    rw [hkeys]
    exact m.sorted

theorem length_insert (m : OrderedMultiMap κ ν) (k : κ) (v : ν) :
    (insert m k v).entries.length = m.entries.length + 1 := by
  simpa [insert] using (map_insertEntry k v m.entries).length_eq

theorem length_modify (m : OrderedMultiMap κ ν) (i : ℕ) (f : ν → ν) :
    (modify m i f).entries.length = m.entries.length := by simp [modify]

variable {m : OrderedMultiMap κ ν}

theorem modify_ne {i : ℕ} {f : ν → ν} (h : i < m.entries.length) (hf : ∀ v, f v ≠ v) : modify m i f ≠ m := by
  intro heq
  have hget : (m.entries.modify i fun e => (e.1, f e.2))[i]? = m.entries[i]? := by
    rw [show m.entries.modify i (fun e => (e.1, f e.2)) = m.entries from congrArg OrderedMultiMap.entries heq]
  rw [List.getElem?_modify_eq, List.getElem?_eq_getElem h, Option.map_eq_map, Option.map_some, Option.some_inj] at hget
  exact hf _ (congrArg Prod.snd hget)

theorem le_of_lt {i j : ℕ} {e e' : κ × ν} (h : i < j) (hi : m.entries[i]? = some e)
    (hj : m.entries[j]? = some e') : e.1 ≤ e'.1 := by
  obtain ⟨hi', rfl⟩ := List.getElem?_eq_some_iff.mp hi
  obtain ⟨hj', rfl⟩ := List.getElem?_eq_some_iff.mp hj
  have hle := List.pairwise_iff_getElem.mp m.sorted i j (by simpa using hi') (by simpa using hj') h
  simpa using hle

theorem find_spec (m : OrderedMultiMap κ ν) (k : κ) :
    find m k ≤ m.entries.length ∧ (∀ j < find m k, ∀ e, m.entries[j]? = some e → e.1 ≠ k) ∧
      ∀ e, m.entries[find m k]? = some e → e.1 = k := by
  refine ⟨List.findIdx_le_length, ?_, ?_⟩
  · intro j hj e he
    obtain ⟨hlt, rfl⟩ := List.getElem?_eq_some_iff.mp he
    simpa using List.not_of_lt_findIdx hj
  · intro e he
    obtain ⟨hlt, rfl⟩ := List.getElem?_eq_some_iff.mp he
    exact of_decide_eq_true (List.findIdx_getElem (w := hlt))

/-- Where a loop ends: the condition holds for the entries that were walked over, and no more. -/
theorem walk_spec (m : OrderedMultiMap κ ν) (cond : κ × ν → Bool) {i : ℕ} (hi : i ≤ m.entries.length) :
    i ≤ walk m cond i ∧ walk m cond i ≤ m.entries.length ∧
      (∀ j, i ≤ j → j < walk m cond i → ∀ e, m.entries[j]? = some e → cond e = true) ∧
      ∀ e, m.entries[walk m cond i]? = some e → cond e = false := by
  have hle : (m.entries.drop i).findIdx (fun e => !cond e) ≤ (m.entries.drop i).length :=
    List.findIdx_le_length
  rw [List.length_drop] at hle
  refine ⟨by rw [walk]; omega, by rw [walk]; omega, ?_, ?_⟩
  · intro j hij hj e he
    have hdrop : (m.entries.drop i)[j - i]? = some e := by
      rw [List.getElem?_drop, Nat.add_sub_cancel' hij, he]
    obtain ⟨hlt, rfl⟩ := List.getElem?_eq_some_iff.mp hdrop
    have hbefore : j - i < (m.entries.drop i).findIdx fun e => !cond e := by
      rw [walk] at hj
      omega
    simpa using List.not_of_lt_findIdx hbefore
  · intro e he
    have hdrop : (m.entries.drop i)[(m.entries.drop i).findIdx fun e => !cond e]? = some e := by
      rw [List.getElem?_drop]
      exact he
    obtain ⟨hlt, rfl⟩ := List.getElem?_eq_some_iff.mp hdrop
    simpa using List.findIdx_getElem (p := fun e : κ × ν => !cond e) (w := hlt)

theorem find_eq_length_iff (m : OrderedMultiMap κ ν) (k : κ) :
    find m k = m.entries.length ↔ ∀ e ∈ m.entries, e.1 ≠ k := by
  simp [find, List.findIdx_eq_length]

theorem find_lt_of_lt {k : κ} {j : ℕ} {e : κ × ν} (he : m.entries[j]? = some e)
    (hk : k < e.1) (hfound : find m k < m.entries.length) : find m k < j := by
  obtain ⟨-, -, hkey⟩ := find_spec m k
  have hat := hkey _ (List.getElem?_eq_getElem hfound)
  rcases Nat.lt_trichotomy (find m k) j with h | h | h
  · exact h
  · subst h
    exact absurd (hkey e he) hk.ne'
  · have hle := le_of_lt h he (List.getElem?_eq_getElem hfound)
    exact absurd (hat ▸ hle) (not_le.mpr hk)

/-- An entry of another key behind the first entry of a key has a larger key. -/
theorem lt_of_find_le {k : κ} {j : ℕ} {e : κ × ν} (hj : find m k ≤ j)
    (he : m.entries[j]? = some e) (hne : e.1 ≠ k) : k < e.1 := by
  have hlt : j < m.entries.length := (List.getElem?_eq_some_iff.mp he).1
  have hfound : find m k < m.entries.length := hj.trans_lt hlt
  obtain ⟨-, -, hkey⟩ := find_spec m k
  have hat := hkey _ (List.getElem?_eq_getElem hfound)
  rcases hj.lt_or_eq with h | h
  · have hle := le_of_lt h (List.getElem?_eq_getElem hfound) he
    rw [hat] at hle
    exact lt_of_le_of_ne hle hne.symm
  · subst h
    exact absurd (hkey e he) hne

end NeoLoader.MultiMap
