import Mathlib.Data.List.Perm.Basic

/-!
# Sets up to a relation

A list stands for a set whose elements are told apart by a relation. Where the relation is symmetric and
transitive on the elements that occur, removing all elements of another list finds those that only one
of the two has.
-/

namespace NeoLoader.RelationSet

variable {T : Type*} (r : T → T → Prop)

/-- No two elements are related. -/
def Distinct (s : List T) : Prop := s.Pairwise fun x y => ¬r x y

/-- An element of the list is related. -/
def Mem (x : T) (s : List T) : Prop := ∃ y ∈ s, r x y

/-- Two lists stand for one set. -/
structure Matches (s t : List T) : Prop where
  /-- Each element of the first list has a related one. -/
  left : ∀ x ∈ s, Mem r x t
  /-- Each element of the second list has a related one. -/
  right : ∀ y ∈ t, Mem r y s

/-- The relation is symmetric, and reflexive and transitive between some elements. -/
structure EquivOn (U : T → Prop) : Prop where
  /-- It is reflexive on the elements. -/
  refl : ∀ x, U x → r x x
  /-- It is symmetric. -/
  symm : ∀ x y, r x y → r y x
  /-- It is transitive between the elements. -/
  trans : ∀ x y z, U x → U y → U z → r x y → r y z → r x z

section Relations

variable {r} {U : T → Prop} {s t : List T} {x : T}

@[simp] theorem mem_cons {y : T} : Mem r x (y :: s) ↔ r x y ∨ Mem r x s := by simp [Mem]

@[simp] theorem mem_append : Mem r x (s ++ t) ↔ Mem r x s ∨ Mem r x t := by
  simp [Mem, or_and_right, exists_or]

@[simp] theorem not_mem_nil : ¬Mem r x [] := by simp [Mem]

theorem Distinct.of_perm (hr : EquivOn r U) (hs : Distinct r s) (h : s.Perm t) : Distinct r t :=
  (h.pairwise_iff fun hxy hyx => hxy (hr.symm _ _ hyx)).mp hs

theorem Distinct.filter (hs : Distinct r s) (p : T → Bool) : Distinct r (s.filter p) :=
  List.Pairwise.filter p hs

theorem Matches.mem_iff (hr : EquivOn r U) (h : Matches r s t) (hs : ∀ y ∈ s, U y) (ht : ∀ y ∈ t, U y)
    (hx : U x) : Mem r x s ↔ Mem r x t := by
  constructor
  · rintro ⟨y, hy, hxy⟩
    obtain ⟨z, hz, hyz⟩ := h.left y hy
    exact ⟨z, hz, hr.trans x y z hx (hs y hy) (ht z hz) hxy hyz⟩
  · rintro ⟨y, hy, hxy⟩
    obtain ⟨z, hz, hyz⟩ := h.right y hy
    exact ⟨z, hz, hr.trans x y z hx (ht y hy) (hs z hz) hxy hyz⟩

end Relations

variable [DecidableRel r]

/-- A list can be searched. -/
instance decidableMem (x : T) (s : List T) : Decidable (Mem r x s) :=
  inferInstanceAs (Decidable (∃ y ∈ s, r x y))

/-- Insert an element unless a related one is there. -/
def insert (s : List T) (x : T) : List T := if Mem r x s then s else s ++ [x]

/-- Remove the first related element. -/
def remove (s : List T) (x : T) : List T := s.eraseP fun y => r x y

/-- Take an element out of the first list, or insert it into the second one. -/
def diffStep (lists : List T × List T) (x : T) : List T × List T :=
  if Mem r x lists.1 then (remove r lists.1 x, lists.2) else (lists.1, insert r lists.2 x)

/-- What is left of a list without the elements of another one, and what only that one has. -/
def diff (s xs : List T) : List T × List T := xs.foldl (diffStep r) (s, [])

/-- The elements without a related one in another list. -/
def missing (s t : List T) : List T := s.filter fun x => ¬Mem r x t

section Lemmas

variable {r} {U : T → Prop} {s t xs acc : List T} {x : T}

@[simp] theorem mem_missing : x ∈ missing r s t ↔ x ∈ s ∧ ¬Mem r x t := by simp [missing]

section

variable (hr : EquivOn r U)

include hr

/-- At most one of distinct elements is related to an element. -/
theorem remove_eq_filter (hs : Distinct r s) (hU : ∀ y ∈ s, U y) (hx : U x) :
    remove r s x = s.filter fun y => ¬r x y := by
  induction s with
  | nil => rfl
  | cons y s ih =>
    obtain ⟨hy, hrest⟩ := List.pairwise_cons.mp hs
    obtain ⟨hUy, hUs⟩ := List.forall_mem_cons.mp hU
    by_cases hxy : r x y
    · have hkeep : s.filter (fun z => ¬r x z) = s := by
        refine List.filter_eq_self.mpr fun z hz => ?_
        have hxz : ¬r x z := fun h => hy z hz (hr.trans y x z hUy hx (hUs z hz) (hr.symm _ _ hxy) h)
        simpa using hxz
      rw [remove, List.eraseP_cons_of_pos (by simpa using hxy), List.filter_cons_of_neg (by simpa using hxy), hkeep]
    · have htail := ih hrest hUs
      rw [remove] at htail
      simp [remove, hxy, htail]

section

variable (hs : Distinct r s) (hUs : ∀ y ∈ s, U y) (hxs : Distinct r xs) (hUxs : ∀ x ∈ xs, U x)

include hs hUs hxs hUxs

/-- Without the elements of another list only those are left that it does not have, and it has
those that are missing. -/
theorem foldl_diffStep (hacc : ∀ x ∈ xs, ¬Mem r x acc) :
    xs.foldl (diffStep r) (s, acc) = (missing r s xs, acc ++ missing r xs s) := by
  induction xs generalizing s acc with
  | nil => simp [missing]
  | cons x xs ih =>
    obtain ⟨hx, hrest⟩ := List.pairwise_cons.mp hxs
    obtain ⟨hUx, hUrest⟩ := List.forall_mem_cons.mp hUxs
    obtain ⟨haccx, haccrest⟩ := List.forall_mem_cons.mp hacc
    rw [List.foldl_cons, diffStep]
    by_cases hmem : Mem r x s
    · have hremove := remove_eq_filter hr hs hUs hUx
      have hkept : ∀ y ∈ xs, Mem r y (s.filter fun z => ¬r x z) ↔ Mem r y s := by
        intro y hy
        refine ⟨fun ⟨z, hz, hyz⟩ => ⟨z, (List.mem_filter.mp hz).1, hyz⟩, fun ⟨z, hz, hyz⟩ => ⟨z, ?_, hyz⟩⟩
        refine List.mem_filter.mpr ⟨hz, ?_⟩
        have hxz : ¬r x z := fun h =>
          hx y hy (hr.trans x z y hUx (hUs z hz) (hUrest y hy) h (hr.symm _ _ hyz))
        simpa using hxz
      rw [if_pos hmem, hremove, ih (hs.filter _) (fun y hy => hUs y (List.mem_filter.mp hy).1) hrest hUrest haccrest]
      refine Prod.ext ?_ ?_
      · simp only [missing, List.filter_filter]
        refine List.filter_congr fun y _ => ?_
        have hsymm : r x y ↔ r y x := ⟨hr.symm x y, hr.symm y x⟩
        simp [hsymm, Bool.and_comm]
      · have hfilter : missing r xs (s.filter fun z => ¬r x z) = missing r xs s :=
          List.filter_congr fun y hy => by simp only [hkept y hy]
        simp only [hfilter]
        simp [missing, hmem]
    · have hinsert : insert r acc x = acc ++ [x] := if_neg haccx
      have hnext : ∀ y ∈ xs, ¬Mem r y (acc ++ [x]) := by
        intro y hy
        have hyx : ¬r y x := fun h => hx y hy (hr.symm _ _ h)
        simp [haccrest y hy, hyx]
      rw [if_neg hmem]
      simp only [hinsert]
      rw [ih hs hUs hrest hUrest hnext]
      refine Prod.ext ?_ ?_
      · refine List.filter_congr fun y hy => ?_
        have hyx : ¬r y x := fun h => hmem ⟨y, hy, hr.symm _ _ h⟩
        simp [hyx]
      · simp [missing, hmem]

theorem diff_eq : diff r s xs = (missing r s xs, missing r xs s) := by
  have hnil : ∀ x ∈ xs, ¬Mem r x [] := fun _ _ => not_mem_nil
  have h := foldl_diffStep hr hs hUs hxs hUxs hnil
  rwa [List.nil_append] at h

end

/-- Distinct elements that are not there are appended. -/
theorem foldl_insert (hxs : Distinct r xs) (hmem : ∀ x ∈ xs, ¬Mem r x s) : xs.foldl (insert r) s = s ++ xs := by
  induction xs generalizing s with
  | nil => simp
  | cons x xs ih =>
    obtain ⟨hx, hrest⟩ := List.pairwise_cons.mp hxs
    obtain ⟨hsx, hsrest⟩ := List.forall_mem_cons.mp hmem
    have hnext : ∀ y ∈ xs, ¬Mem r y (s ++ [x]) := by
      intro y hy
      have hyx : ¬r y x := fun h => hx y hy (hr.symm _ _ h)
      simp [hsrest y hy, hyx]
    rw [List.foldl_cons, insert, if_neg hsx, ih hrest hnext]
    simp

/-- Removing elements leaves those that are not related to them. -/
theorem foldl_remove (hs : Distinct r s) (hUs : ∀ y ∈ s, U y)
    (hUxs : ∀ x ∈ xs, U x) : xs.foldl (remove r) s = missing r s xs := by
  induction xs generalizing s with
  | nil => simp [missing]
  | cons x xs ih =>
    obtain ⟨hUx, hUrest⟩ := List.forall_mem_cons.mp hUxs
    rw [List.foldl_cons, remove_eq_filter hr hs hUs hUx,
      ih (hs.filter _) (fun y hy => hUs y (List.mem_filter.mp hy).1) hUrest]
    simp only [missing, List.filter_filter]
    refine List.filter_congr fun y _ => ?_
    have hsymm : r x y ↔ r y x := ⟨hr.symm x y, hr.symm y x⟩
    simp [hsymm, Bool.and_comm]

end

theorem foldl_insert_of_mem (h : ∀ x ∈ xs, Mem r x s) : xs.foldl (insert r) s = s := by
  induction xs with
  | nil => rfl
  | cons x xs ih =>
    obtain ⟨hx, hrest⟩ := List.forall_mem_cons.mp h
    rw [List.foldl_cons, insert, if_pos hx, ih hrest]

theorem foldl_remove_of_not_mem (h : ∀ x ∈ xs, ¬Mem r x s) : xs.foldl (remove r) s = s := by
  induction xs with
  | nil => rfl
  | cons x xs ih =>
    obtain ⟨hx, hrest⟩ := List.forall_mem_cons.mp h
    have hkeep : remove r s x = s := List.eraseP_of_forall_not fun y hy => by
      simpa using fun hxy => hx ⟨y, hy, hxy⟩
    rw [List.foldl_cons, hkeep, ih hrest]

/-- A list that gets what it misses of another one and loses what that one misses of it stands
for the same set. -/
theorem matches_update (hr : EquivOn r U) (hs : Distinct r s) (hUs : ∀ y ∈ s, U y)
    (hxs : Distinct r xs) (hUxs : ∀ x ∈ xs, U x) {added dropped : List T}
    (hadded : added.Perm (missing r xs s)) (hdropped : dropped.Perm (missing r s xs)) :
    Distinct r (dropped.foldl (remove r) (added.foldl (insert r) s)) ∧
      (∀ y ∈ dropped.foldl (remove r) (added.foldl (insert r) s), U y) ∧
      Matches r (dropped.foldl (remove r) (added.foldl (insert r) s)) xs := by
  have hmem : ∀ x, x ∈ added ↔ x ∈ xs ∧ ¬Mem r x s := fun x => by rw [hadded.mem_iff, mem_missing]
  have hgone : ∀ x, x ∈ dropped ↔ x ∈ s ∧ ¬Mem r x xs := fun x => by rw [hdropped.mem_iff, mem_missing]
  have hdistinct : Distinct r added := (hxs.filter _).of_perm hr hadded.symm
  have hall : Distinct r (s ++ added) := List.pairwise_append.mpr ⟨hs, hdistinct,
    fun y hy x hx hyx => ((hmem x).mp hx).2 ⟨y, hy, hr.symm _ _ hyx⟩⟩
  have hUall : ∀ y ∈ s ++ added, U y := by
    intro y hy
    rcases List.mem_append.mp hy with hy | hy
    · exact hUs y hy
    · exact hUxs y ((hmem y).mp hy).1
  have hnew : ∀ x ∈ added, ¬Mem r x s := fun x hx => ((hmem x).mp hx).2
  have hUgone : ∀ x ∈ dropped, U x := fun x hx => hUs x ((hgone x).mp hx).1
  rw [foldl_insert hr hdistinct hnew, foldl_remove hr hall hUall hUgone]
  refine ⟨hall.filter _, fun y hy => hUall y (mem_missing.mp hy).1, ?_, ?_⟩
  · intro y hy
    obtain ⟨hy, hstays⟩ := mem_missing.mp hy
    rcases List.mem_append.mp hy with hold | hadd
    · by_contra hmissing
      exact hstays ⟨y, (hgone y).mpr ⟨hold, hmissing⟩, hr.refl y (hUs y hold)⟩
    · exact ⟨y, ((hmem y).mp hadd).1, hr.refl y (hUall y hy)⟩
  · -- What is related to an element of the other list has not been dropped.
    have hkept : ∀ x ∈ xs, ∀ y ∈ s ++ added, r x y → y ∈ missing r (s ++ added) dropped := by
      intro x hx y hy hxy
      refine mem_missing.mpr ⟨hy, ?_⟩
      rintro ⟨z, hz, hyz⟩
      have hzx := hr.symm _ _ (hr.trans x y z (hUxs x hx) (hUall y hy) (hUgone z hz) hxy hyz)
      exact ((hgone z).mp hz).2 ⟨x, hx, hzx⟩
    intro x hx
    by_cases hold : Mem r x s
    · obtain ⟨y, hy, hxy⟩ := hold
      exact ⟨y, hkept x hx y (List.mem_append_left _ hy) hxy, hxy⟩
    · have hadd := (hmem x).mpr ⟨hx, hold⟩
      have hself := hr.refl x (hUxs x hx)
      exact ⟨x, hkept x hx x (List.mem_append_right _ hadd) hself, hself⟩

end Lemmas

end NeoLoader.RelationSet
