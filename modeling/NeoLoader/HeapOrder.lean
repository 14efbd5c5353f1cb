import Mathlib.Logic.Equiv.Basic
import Mathlib.Order.Basic
import Mathlib.Order.Nat

/-!
# Heaps in arrays

An array is seen as a function of its indices. The two children of a place are behind it, and a heap has the bigger
elements before. An element that is too small sinks until its children are no bigger.
-/

namespace NeoLoader.HeapOrder

variable {α : Type*} {R : α → α → Prop} {a : ℕ → α} {first last hole k c : ℕ}

/-- A place and one of its children. -/
def IsChild (k c : ℕ) : Prop := c = 2 * k + 1 ∨ c = 2 * k + 2

theorem IsChild.lt (h : IsChild k c) : k < c := by
  rcases h with rfl | rfl <;> omega

theorem IsChild.unique {k' : ℕ} (h : IsChild k c) (h' : IsChild k' c) : k = k' := by
  rcases h with h | h <;> rcases h' with h' | h' <;> omega

/-- No child is bigger than its parent, from one place to another. -/
def Heap (R : α → α → Prop) (a : ℕ → α) (first last : ℕ) : Prop :=
  ∀ k c, first ≤ k → IsChild k c → c ≤ last → R (a c) (a k)

/-- A heap but for the children of one place, which are no bigger than its parent. -/
structure HeapBut (R : α → α → Prop) (a : ℕ → α) (first last hole : ℕ) : Prop where
  /-- The children of other places. -/
  other : ∀ k c, first ≤ k → k ≠ hole → IsChild k c → c ≤ last → R (a c) (a k)
  /-- The children of the place. -/
  grand : ∀ k c, first ≤ k → IsChild k hole → IsChild hole c → c ≤ last → R (a c) (a k)

theorem Heap.heapBut (h : Heap R a (hole + 1) last) : HeapBut R a hole last hole where
  other k c hk hne := h k c (by omega)
  grand k c hk hchild := absurd hchild.lt (by omega)

theorem HeapBut.heap (h : HeapBut R a first last hole)
    (hdone : ∀ c, IsChild hole c → c ≤ last → R (a c) (a hole)) : Heap R a first last := by
  intro k c hk hchild hc
  by_cases hhole : k = hole
  · subst hhole
    exact hdone c hchild hc
  · exact h.other k c hk hhole hchild hc

/-- The element sinks to the bigger child. -/
theorem HeapBut.sink (h : HeapBut R a first last hole) {next : ℕ} (hfirst : first ≤ hole) (hnext : IsChild hole next)
    (hlast : next ≤ last) (hbest : ∀ c, IsChild hole c → c ≤ last → R (a c) (a next))
    (hless : R (a hole) (a next)) : HeapBut R (a ∘ Equiv.swap hole next) first last next := by
  have hlt := hnext.lt
  constructor
  · intro k c hk hne hchild hc
    have hlt' := hchild.lt
    simp only [Function.comp_apply]
    by_cases hhole : k = hole
    · subst hhole
      rw [Equiv.swap_apply_left]
      by_cases hc' : c = next
      · rw [hc', Equiv.swap_apply_right]
        exact hless
      · rw [Equiv.swap_apply_of_ne_of_ne (by omega) hc']
        exact hbest c hchild hc
    · rw [Equiv.swap_apply_of_ne_of_ne hhole hne]
      by_cases hc' : c = hole
      · rw [hc', Equiv.swap_apply_left]
        exact h.grand k next hk (hc' ▸ hchild) hnext hlast
      · have hc'' : c ≠ next := fun hnext' => hhole (hchild.unique (hnext' ▸ hnext))
        rw [Equiv.swap_apply_of_ne_of_ne hc' hc'']
        exact h.other k c hk hhole hchild hc
  · intro k c hk hchild hchild' hc
    have hhole : k = hole := hchild.unique hnext
    have hlt' := hchild'.lt
    subst hhole
    simp only [Function.comp_apply]
    rw [Equiv.swap_apply_left, Equiv.swap_apply_of_ne_of_ne (by omega) (by omega)]
    exact h.other next c (by omega) (by omega) hchild' hc

/-- The first element of a heap is the biggest. -/
theorem Heap.root (hrefl : ∀ x, R x x) (htrans : ∀ x y z, R x y → R y z → R x z) (h : Heap R a 0 last) :
    ∀ k ≤ last, R (a k) (a 0) := by
  intro k
  induction k using Nat.strongRecOn with
  | ind k ih =>
    intro hk
    by_cases hzero : k = 0
    · subst hzero
      exact hrefl _
    · have hchild : IsChild ((k - 1) / 2) k := by
        rw [IsChild]
        omega
      exact htrans _ _ _ (h _ k (Nat.zero_le _) hchild hk) (ih _ hchild.lt (by omega))

theorem Heap.exchange {r : ℕ} (h : Heap R a 0 (r + 1)) : HeapBut R (a ∘ Equiv.swap (r + 1) 0) 0 r 0 where
  other k c hk hne hchild hc := by
    have hlt := hchild.lt
    simp only [Function.comp_apply]
    rw [Equiv.swap_apply_of_ne_of_ne (by omega) (by omega), Equiv.swap_apply_of_ne_of_ne (by omega) hne]
    exact h k c hk hchild (by omega)
  grand k c hk hchild := absurd hchild.lt (by omega)

/-- Two arrays whose elements differ in their order before a place. -/
def Shuffled (m : ℕ) (a a' : ℕ → α) : Prop := ∃ σ : Equiv.Perm ℕ, a' = a ∘ σ ∧ ∀ k, m ≤ k → σ k = k

theorem Shuffled.refl (m : ℕ) (a : ℕ → α) : Shuffled m a a := ⟨Equiv.refl ℕ, rfl, fun _ _ => rfl⟩

theorem Shuffled.swap {m i j : ℕ} (hi : i < m) (hj : j < m) (a : ℕ → α) : Shuffled m a (a ∘ Equiv.swap i j) :=
  ⟨Equiv.swap i j, rfl, fun k hk => Equiv.swap_apply_of_ne_of_ne (by omega) (by omega)⟩

theorem Shuffled.trans {m : ℕ} {a a' a'' : ℕ → α} (h : Shuffled m a a') (h' : Shuffled m a' a'') :
    Shuffled m a a'' := by
  obtain ⟨σ, rfl, hσ⟩ := h
  obtain ⟨τ, rfl, hτ⟩ := h'
  refine ⟨τ.trans σ, rfl, fun k hk => ?_⟩
  rw [Equiv.trans_apply, hτ k hk, hσ k hk]

theorem Shuffled.behind {m : ℕ} {a a' : ℕ → α} (h : Shuffled m a a') (hk : m ≤ k) : a' k = a k := by
  obtain ⟨σ, rfl, hσ⟩ := h
  rw [Function.comp_apply, hσ k hk]

theorem Shuffled.before {m : ℕ} {a a' : ℕ → α} (h : Shuffled m a a') {P : α → Prop} (hP : ∀ k < m, P (a k))
    (hk : k < m) : P (a' k) := by
  obtain ⟨σ, rfl, hσ⟩ := h
  refine hP _ ?_
  by_contra hle
  have hfix : σ k = k := σ.injective (hσ _ (not_lt.mp hle))
  omega

/-- The elements from a place on are in order, and no element before is bigger. -/
def Settled (R : α → α → Prop) (a : ℕ → α) (r n : ℕ) : Prop := ∀ i j, i < j → r ≤ j → j < n → R (a i) (a j)

/-- The biggest element of a heap goes to the place behind the others. -/
theorem Settled.extract {r n : ℕ} {a' : ℕ → α} (h : Settled R a (r + 1) n) (hroot : ∀ k ≤ r, R (a k) (a 0))
    (hshuffled : Shuffled r (a ∘ Equiv.swap r 0) a') : Settled R a' r n := by
  have hlast : a' r = a 0 := by
    rw [hshuffled.behind le_rfl, Function.comp_apply, Equiv.swap_apply_left]
  have hbehind : ∀ k, r < k → a' k = a k := by
    intro k hk
    rw [hshuffled.behind hk.le, Function.comp_apply, Equiv.swap_apply_of_ne_of_ne (by omega) (by omega)]
  have hbefore : ∀ P : α → Prop, (∀ k ≤ r, P (a k)) → ∀ k < r, P (a' k) := by
    intro P hP k hk
    refine hshuffled.before (fun k hk => ?_) hk
    rw [Function.comp_apply]
    by_cases hzero : k = 0
    · rw [hzero, Equiv.swap_apply_right]
      exact hP r le_rfl
    · rw [Equiv.swap_apply_of_ne_of_ne (by omega) hzero]
      exact hP k hk.le
  intro i j hij hj hn
  by_cases hjr : j = r
  · subst hjr
    rw [hlast]
    exact hbefore (fun x => R x (a 0)) hroot i hij
  · rw [hbehind j (by omega)]
    rcases lt_trichotomy i r with hi | rfl | hi
    · exact hbefore (fun x => R x (a j)) (fun k hk => h k j (by omega) (by omega) hn) i hi
    · rw [hlast]
      exact h 0 j (by omega) (by omega) hn
    · rw [hbehind i hi]
      exact h i j hij (by omega) hn

end NeoLoader.HeapOrder
