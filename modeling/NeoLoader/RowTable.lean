import Mathlib.Data.List.Nodup
import Mathlib.Tactic.Linarith

/-!
# Tables of rows

A table numbers its rows by an index that is never used again. Statements select a row,
insert one, and delete or update those that meet a condition.
-/

namespace NeoLoader.RowTable

/-- A table, with the indices of its rows in order and below the next one. -/
structure Table (α : Type) where
  /-- The rows with their indices. -/
  rows : List (ℕ × α)
  /-- The next index. -/
  next : ℕ
  /-- The rows have different indices. -/
  nodup : (rows.map Prod.fst).Nodup
  /-- The indices are not zero, and were given before. -/
  given : ∀ r ∈ rows, 1 ≤ r.1 ∧ r.1 < next
  /-- The first index is one. -/
  pos : 1 ≤ next

namespace Table

variable {α β : Type}

/-- A table without rows. -/
def empty : Table α := ⟨[], 1, List.nodup_nil, fun _ hr => absurd hr List.not_mem_nil, le_rfl⟩

/-- What the rows hold. -/
def values (t : Table α) : List α := t.rows.map Prod.snd

def insert (t : Table α) (v : α) : Table α where
  rows := t.rows ++ [(t.next, v)]
  next := t.next + 1
  nodup := by
    rw [List.map_append, List.nodup_append]
    refine ⟨t.nodup, List.nodup_singleton _, fun i hi j hj => ?_⟩
    obtain ⟨r, hr, rfl⟩ := List.mem_map.mp hi
    rw [List.mem_singleton.mp hj]
    exact (t.given r hr).2.ne
  given := by
    intro r hr
    have hpos := t.pos
    rcases List.mem_append.mp hr with hold | hnew
    · have hgiven := t.given r hold
      omega
    · rw [List.mem_singleton.mp hnew]
      exact ⟨hpos, Nat.lt_succ_self _⟩
  pos := Nat.le_succ_of_le t.pos

/-- `DELETE`, of the rows that meet a condition. -/
def delete (t : Table α) (p : ℕ → α → Bool) : Table α where
  rows := t.rows.filter fun r => !p r.1 r.2
  next := t.next
  nodup := t.nodup.sublist (List.filter_sublist.map Prod.fst)
  given := fun r hr => t.given r (List.mem_of_mem_filter hr)
  pos := t.pos

/-- `UPDATE`, of the rows that meet a condition. -/
def update (t : Table α) (p : ℕ → α → Bool) (f : α → α) : Table α where
  rows := t.rows.map fun r => (r.1, if p r.1 r.2 then f r.2 else r.2)
  next := t.next
  nodup := by
    rw [List.map_map]
    exact t.nodup
  given := by
    intro r hr
    obtain ⟨r', hr', rfl⟩ := List.mem_map.mp hr
    exact t.given r' hr'
  pos := t.pos

/-- `SELECT`, the first row that meets a condition. -/
def select (t : Table α) (p : α → Bool) : Option (ℕ × α) := t.rows.find? fun r => p r.2

/-- `SELECT`, all rows that meet a condition. -/
def selectAll (t : Table α) (p : α → Bool) : List α := t.values.filter p

variable {t : Table α}

theorem of_select {p : α → Bool} {r : ℕ × α} (h : t.select p = some r) : r ∈ t.rows ∧ p r.2 = true := by
  unfold select at h
  have hp := List.find?_some h
  exact ⟨List.mem_of_find?_eq_some h, hp⟩

theorem of_select_none {p : α → Bool} (h : t.select p = none) {v : α} (hv : v ∈ t.values) : p v = false := by
  obtain ⟨r, hr, rfl⟩ := List.mem_map.mp hv
  have hnot := List.find?_eq_none.mp h r hr
  exact Bool.eq_false_iff.mpr hnot

theorem mem_values {r : ℕ × α} (h : r ∈ t.rows) : r.2 ∈ t.values := List.mem_map_of_mem h

theorem mem_values_insert {v w : α} : w ∈ (t.insert v).values ↔ w ∈ t.values ∨ w = v := by
  unfold values insert
  simp

theorem of_mem_values_delete {p : ℕ → α → Bool} {v : α} (h : v ∈ (t.delete p).values) : v ∈ t.values := by
  obtain ⟨r, hr, rfl⟩ := List.mem_map.mp h
  exact mem_values (List.mem_of_mem_filter hr)

theorem eq_of_fst {r r' : ℕ × α} (hr : r ∈ t.rows) (hr' : r' ∈ t.rows) (h : r.1 = r'.1) : r = r' :=
  List.inj_on_of_nodup_map t.nodup hr hr' h

/-- The rows that are left have other values under a key, if the deleted row is the one with
the value. -/
theorem not_mem_delete (key : α → β) {p : ℕ → α → Bool} {r : ℕ × α} (hr : r ∈ t.rows)
    (hkeys : (t.values.map key).Nodup) (hp : p r.1 r.2 = true) : key r.2 ∉ (t.delete p).values.map key := by
  intro hmem
  obtain ⟨v, hv, hkey⟩ := List.mem_map.mp hmem
  obtain ⟨r', hr', rfl⟩ := List.mem_map.mp hv
  obtain ⟨hold, hnot⟩ := List.mem_filter.mp hr'
  rw [values, List.map_map] at hkeys
  have hsame : r' = r := List.inj_on_of_nodup_map hkeys hold hr hkey
  rw [hsame, hp] at hnot
  exact absurd hnot Bool.false_ne_true

theorem nodup_delete {key : α → β} (p : ℕ → α → Bool) (hkeys : (t.values.map key).Nodup) :
    ((t.delete p).values.map key).Nodup :=
  hkeys.sublist ((List.filter_sublist.map Prod.snd).map key)

theorem nodup_insert {key : α → β} {v : α} (hkeys : (t.values.map key).Nodup)
    (hnew : key v ∉ t.values.map key) : ((t.insert v).values.map key).Nodup := by
  have hvalues : (t.insert v).values.map key = t.values.map key ++ [key v] := by
    unfold values insert
    simp
  rw [hvalues, List.nodup_append]
  refine ⟨hkeys, List.nodup_singleton _, fun k hk k' hk' => ?_⟩
  rw [List.mem_singleton.mp hk']
  rintro rfl
  exact hnew hk

theorem keys_update (key : α → β) (p : ℕ → α → Bool) {f : α → α} (hf : ∀ v, key (f v) = key v) :
    (t.update p f).values.map key = t.values.map key := by
  unfold values update
  simp only [List.map_map]
  refine List.map_congr_left fun r _ => ?_
  simp only [Function.comp_apply]
  split_ifs
  · exact hf r.2
  · rfl

end Table

end NeoLoader.RowTable
