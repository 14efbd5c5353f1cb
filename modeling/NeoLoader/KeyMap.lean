import Mathlib.Data.List.Sort
import Mathlib.Order.Lattice

/-!
# Maps ordered by their keys

A map is the list of its entries in the order of their keys, each key at most once.
Two maps with the same values at all keys are the same map.
-/

namespace NeoLoader.KeyMap

variable {κ ν : Type*} [LinearOrder κ]

/-- Entries in the order of their keys, without a key twice. -/
structure OrderedMap (κ ν : Type*) [LinearOrder κ] where
  /-- The entries from the smallest key on. -/
  entries : List (κ × ν)
  /-- Each key is smaller than the next one. -/
  sorted : entries.Pairwise fun a b => a.1 < b.1

/-- Put an entry into its place, in stead of one with this key. -/
def insertEntry (k : κ) (v : ν) : List (κ × ν) → List (κ × ν)
  | [] => [(k, v)]
  | e :: l =>
    if k < e.1 then (k, v) :: e :: l
    else if e.1 < k then e :: insertEntry k v l
    else (k, v) :: l

/-- An entry is the new one, or an old one with another key. -/
theorem mem_insertEntry {k : κ} {v : ν} {l : List (κ × ν)} (h : l.Pairwise fun a b => a.1 < b.1) {e : κ × ν} :
    e ∈ insertEntry k v l ↔ e = (k, v) ∨ e ∈ l ∧ e.1 ≠ k := by
  induction l with
  | nil => simp [insertEntry]
  | cons a l ih =>
    rw [List.pairwise_cons] at h
    have hafter : ∀ b ∈ l, a.1 < b.1 := h.1
    rw [insertEntry]
    split_ifs with hlt hgt
    · have hne : ∀ b ∈ a :: l, b.1 ≠ k := by
        intro b hb
        rcases List.mem_cons.mp hb with rfl | hb
        · exact hlt.ne'
        · exact (hlt.trans (hafter b hb)).ne'
      rw [List.mem_cons]
      exact or_congr_right ⟨fun hm => ⟨hm, hne e hm⟩, And.left⟩
    · rw [List.mem_cons, ih h.2, List.mem_cons]
      constructor
      · rintro (rfl | rfl | ⟨hm, hne⟩)
        exacts [Or.inr ⟨Or.inl rfl, hgt.ne⟩, Or.inl rfl, Or.inr ⟨Or.inr hm, hne⟩]
      · rintro (rfl | ⟨rfl | hm, hne⟩)
        exacts [Or.inr (Or.inl rfl), Or.inl rfl, Or.inr (Or.inr ⟨hm, hne⟩)]
    · have hsame : a.1 = k := le_antisymm (not_lt.mp hlt) (not_lt.mp hgt)
      rw [List.mem_cons, List.mem_cons]
      refine or_congr_right ⟨fun hm => ⟨Or.inr hm, (hsame ▸ hafter e hm).ne'⟩, ?_⟩
      rintro ⟨rfl | hm, hne⟩
      exacts [absurd hsame hne, hm]

/-- The entries stay in order. -/
theorem pairwise_insertEntry (k : κ) (v : ν) {l : List (κ × ν)} (h : l.Pairwise fun a b => a.1 < b.1) :
    (insertEntry k v l).Pairwise fun a b => a.1 < b.1 := by
  induction l with
  | nil => exact List.pairwise_singleton _ _
  | cons a l ih =>
    rw [insertEntry]
    have hcons := List.pairwise_cons.mp h
    split_ifs with hlt hgt
    · refine List.pairwise_cons.mpr ⟨fun b hb => ?_, h⟩
      rcases List.mem_cons.mp hb with rfl | hb
      · exact hlt
      · exact hlt.trans (hcons.1 b hb)
    · refine List.pairwise_cons.mpr ⟨fun b hb => ?_, ih hcons.2⟩
      rcases (mem_insertEntry hcons.2).mp hb with rfl | ⟨hm, -⟩
      · exact hgt
      · exact hcons.1 b hm
    · have hsame : a.1 = k := le_antisymm (not_lt.mp hlt) (not_lt.mp hgt)
      exact List.pairwise_cons.mpr ⟨fun b hb => hsame ▸ hcons.1 b hb, hcons.2⟩

namespace OrderedMap

/-- The map without entries. -/
def empty : OrderedMap κ ν := ⟨[], List.Pairwise.nil⟩

/-- The map with another value at a key. -/
def insert (m : OrderedMap κ ν) (k : κ) (v : ν) : OrderedMap κ ν :=
  ⟨insertEntry k v m.entries, pairwise_insertEntry k v m.sorted⟩

/-- Number of entries. -/
def size (m : OrderedMap κ ν) : ℕ := m.entries.length

/-- The entries with the smallest keys. -/
def take (m : OrderedMap κ ν) (n : ℕ) : OrderedMap κ ν :=
  ⟨m.entries.take n, m.sorted.sublist (List.take_sublist _ _)⟩

/-- Number of entries with a smaller key. -/
def rank (m : OrderedMap κ ν) (k : κ) : ℕ := m.entries.countP fun e => e.1 < k

/-- There is an entry with this key. -/
def HasKey (m : OrderedMap κ ν) (k : κ) : Prop := ∃ e ∈ m.entries, e.1 = k

variable {m : OrderedMap κ ν}

theorem mem_insert {k : κ} {v : ν} {e : κ × ν} : e ∈ (m.insert k v).entries ↔ e = (k, v) ∨ e ∈ m.entries ∧ e.1 ≠ k :=
  mem_insertEntry m.sorted

/-- The keys after putting an entry in. -/
theorem hasKey_insert {k k' : κ} {v : ν} : (m.insert k v).HasKey k' ↔ k' = k ∨ m.HasKey k' := by
  constructor
  · rintro ⟨e, he, rfl⟩
    rcases mem_insert.mp he with rfl | ⟨hm, -⟩
    exacts [Or.inl rfl, Or.inr ⟨e, hm, rfl⟩]
  · intro h
    by_cases hk : k' = k
    · exact ⟨(k, v), mem_insert.mpr (Or.inl rfl), hk.symm⟩
    · obtain ⟨e, he, rfl⟩ := h.resolve_left hk
      exact ⟨e, mem_insert.mpr (Or.inr ⟨he, hk⟩), rfl⟩

/-- Putting an entry in makes no rank smaller. -/
theorem rank_le_rank_insert (m : OrderedMap κ ν) (k k' : κ) (v : ν) : m.rank k' ≤ (m.insert k v).rank k' := by
  unfold rank insert
  dsimp only
  induction m.entries with
  | nil => exact Nat.zero_le _
  | cons a l ih =>
    rw [insertEntry]
    split_ifs with hlt hgt
    · exact (List.sublist_cons_self _ _).countP_le
    · rw [List.countP_cons, List.countP_cons]
      omega
    · have hsame : a.1 = k := le_antisymm (not_lt.mp hlt) (not_lt.mp hgt)
      rw [List.countP_cons, List.countP_cons, hsame]

theorem nodup_keys (m : OrderedMap κ ν) : (m.entries.map Prod.fst).Nodup := by
  refine List.Pairwise.map _ (fun a b hab => ?_) m.sorted
  exact ne_of_lt hab

/-- An entry is among the first ones if not too many keys are smaller. -/
theorem mem_take_iff {n : ℕ} {e : κ × ν} : e ∈ (m.take n).entries ↔ e ∈ m.entries ∧ m.rank e.1 < n := by
  obtain ⟨l, hl⟩ := m
  unfold take rank
  dsimp only
  induction l generalizing n with
  | nil => simp
  | cons a l ih =>
    rw [List.pairwise_cons] at hl
    cases n with
    | zero => simp
    | succ n =>
      rw [List.take_succ_cons, List.mem_cons, List.mem_cons, List.countP_cons, ih hl.2]
      constructor
      · rintro (rfl | ⟨hm, hr⟩)
        · refine ⟨Or.inl rfl, ?_⟩
          have hzero : (l.countP fun b => b.1 < e.1) = 0 :=
            List.countP_eq_zero.mpr fun b hb => by simpa using (hl.1 b hb).le
          simp [hzero]
        · exact ⟨Or.inr hm, by simpa [hl.1 e hm] using hr⟩
      · rintro ⟨rfl | hm, hr⟩
        · exact Or.inl rfl
        · exact Or.inr ⟨hm, by simpa [hl.1 e hm] using hr⟩

/-- The rank among the first entries. -/
theorem rank_take (m : OrderedMap κ ν) (n : ℕ) (k : κ) : (m.take n).rank k = min n (m.rank k) := by
  obtain ⟨l, hl⟩ := m
  unfold take rank
  dsimp only
  induction l generalizing n with
  | nil => simp
  | cons a l ih =>
    rw [List.pairwise_cons] at hl
    cases n with
    | zero => simp
    | succ n =>
      rw [List.take_succ_cons, List.countP_cons, List.countP_cons, ih _ hl.2]
      by_cases ha : a.1 < k
      · simp only [ha, decide_true, if_true]
        omega
      · have hzero : (l.countP fun b => b.1 < k) = 0 :=
          List.countP_eq_zero.mpr fun b hb => by
            simpa using ((not_lt.mp ha).trans_lt (hl.1 b hb)).le
        simp [ha, hzero]

@[simp] theorem size_take (m : OrderedMap κ ν) (n : ℕ) : (m.take n).size = min n m.size :=
  List.length_take

/-- The map with other values at its keys. -/
def mapValues {μ : Type*} (f : ν → μ) (m : OrderedMap κ ν) : OrderedMap κ μ :=
  ⟨m.entries.map fun e => (e.1, f e.2), List.Pairwise.map _ (fun _ _ h => h) m.sorted⟩

theorem insertEntry_last {k : κ} {l : List (κ × ν)} (h : ∀ e ∈ l, e.1 < k) (v : ν) :
    insertEntry k v l = l ++ [(k, v)] := by
  induction l with
  | nil => rfl
  | cons a l ih =>
    have ha := h a List.mem_cons_self
    rw [insertEntry, if_neg ha.not_gt, if_pos ha, ih fun e he => h e (List.mem_cons_of_mem _ he), List.cons_append]

/-- Putting entries in behind all others in their order. -/
theorem entries_foldl_insert {l : List (κ × ν)} (h : (m.entries ++ l).Pairwise fun a b => a.1 < b.1) :
    (l.foldl (fun m e => m.insert e.1 e.2) m).entries = m.entries ++ l := by
  induction l generalizing m with
  | nil => exact (List.append_nil _).symm
  | cons e l ih =>
    have hlast : (m.insert e.1 e.2).entries = m.entries ++ [e] :=
      insertEntry_last (fun a ha => (List.pairwise_append.mp h).2.2 a ha e List.mem_cons_self) e.2
    have happend : m.entries ++ e :: l = (m.insert e.1 e.2).entries ++ l := by
      rw [hlast, List.append_assoc, List.singleton_append]
    rw [List.foldl_cons, ih (happend ▸ h), happend]

/-- Putting the entries of a map in one after the other, with other values. -/
theorem foldl_insert_mapValues {μ : Type*} (f : ν → μ) (m : OrderedMap κ ν) :
    (m.entries.foldl (fun m e => m.insert e.1 (f e.2)) empty) = m.mapValues f := by
  have hsorted := (m.mapValues f).sorted
  have hentries := entries_foldl_insert (m := empty) (l := (m.mapValues f).entries) hsorted
  rw [mapValues, List.foldl_map] at hentries
  unfold mapValues
  cases hfold : m.entries.foldl (fun m e => m.insert e.1 (f e.2)) empty with
  | mk entries sorted =>
    rw [hfold] at hentries
    subst hentries
    rfl

end OrderedMap

end NeoLoader.KeyMap
