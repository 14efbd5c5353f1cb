import Mathlib.Data.List.Sort
import Mathlib.Tactic.Linarith

/-!
# Tilings of a window by spans

A list of spans tiles a window if the spans are not empty, each one starts
where the one before it ends, and together they reach from the first end of
the window to the last. Nothing below depends on a program.
-/

namespace NeoLoader.Tiling

/-- A right-open span of offsets with a value. -/
structure Span (V : Type*) where
  /-- First offset of the span. -/
  first : ℕ
  /-- First offset after the span. -/
  last : ℕ
  /-- Value on the span. -/
  value : V
  deriving DecidableEq, Repr

variable {V : Type*}

/-- The span contains the offset. -/
def Span.Covers (span : Span V) (x : ℕ) : Prop := span.first ≤ x ∧ x < span.last

instance (span : Span V) (x : ℕ) : Decidable (span.Covers x) :=
  inferInstanceAs (Decidable (_ ∧ _))

/-- The spans tile the window from the first offset to the last one. -/
def Tiles : ℕ → ℕ → List (Span V) → Prop
  | a, b, [] => a = b
  | a, b, span :: spans => span.first = a ∧ a < span.last ∧ Tiles span.last b spans

instance decidableTiles : ∀ (a b : ℕ) (spans : List (Span V)), Decidable (Tiles a b spans)
  | a, b, [] => inferInstanceAs (Decidable (a = b))
  | a, b, span :: spans =>
    have := decidableTiles span.last b spans
    inferInstanceAs (Decidable (span.first = a ∧ a < span.last ∧ Tiles span.last b spans))

theorem Tiles.le {a b : ℕ} {spans : List (Span V)} (h : Tiles a b spans) : a ≤ b := by
  induction spans generalizing a with
  | nil => exact Nat.le_of_eq h
  | cons span spans ih =>
    obtain ⟨-, hlt, ht⟩ := h
    exact hlt.le.trans (ih ht)

/-- Two tilings in a row. -/
theorem tiles_append {a c : ℕ} {front back : List (Span V)} :
    Tiles a c (front ++ back) ↔ ∃ b, Tiles a b front ∧ Tiles b c back := by
  induction front generalizing a with
  | nil =>
    constructor
    · intro h
      exact ⟨a, rfl, h⟩
    · rintro ⟨b, hb, h⟩
      rw [show a = b from hb]
      exact h
  | cons span front ih =>
    rw [List.cons_append]
    constructor
    · rintro ⟨hf, hlt, ht⟩
      obtain ⟨b, hb, h⟩ := ih.mp ht
      exact ⟨b, ⟨hf, hlt, hb⟩, h⟩
    · rintro ⟨b, ⟨hf, hlt, hb⟩, h⟩
      exact ⟨hf, hlt, ih.mpr ⟨b, hb, h⟩⟩

section

variable {a b : ℕ} {spans : List (Span V)} (h : Tiles a b spans)

include h

theorem Tiles.bounds {span : Span V} (hm : span ∈ spans) : a ≤ span.first ∧ span.first < span.last ∧ span.last ≤ b := by
  induction spans generalizing a with
  | nil => cases hm
  | cons head spans ih =>
    obtain ⟨rfl, hlt, ht⟩ := h
    rcases List.mem_cons.mp hm with rfl | hm
    · exact ⟨le_rfl, hlt, ht.le⟩
    · have hi := ih ht hm
      exact ⟨by omega, hi.2⟩

/-- No two spans of a tiling contain the same offset. -/
theorem Tiles.unique {span other : Span V}
    (hm : span ∈ spans) (hm' : other ∈ spans) {x : ℕ} (hx : span.Covers x) (hx' : other.Covers x) : span = other := by
  induction spans generalizing a with
  | nil => cases hm
  | cons head spans ih =>
    obtain ⟨rfl, hlt, ht⟩ := h
    obtain ⟨h1, h2⟩ := hx
    obtain ⟨h3, h4⟩ := hx'
    rcases List.mem_cons.mp hm with rfl | hrest
    · rcases List.mem_cons.mp hm' with rfl | hrest'
      · rfl
      · have := ht.bounds hrest'
        omega
    · rcases List.mem_cons.mp hm' with rfl | hrest'
      · have := ht.bounds hrest
        omega
      · exact ih ht hrest hrest'

/-- A tiling splits at the span over an offset of its window. -/
theorem Tiles.exists_split {x : ℕ} (ha : a ≤ x) (hb : x < b) :
    ∃ front span back, spans = front ++ span :: back ∧ span.Covers x ∧ Tiles span.first b (span :: back) := by
  induction spans generalizing a with
  | nil =>
    have hab : a = b := h
    omega
  | cons span spans ih =>
    obtain ⟨rfl, hlt, ht⟩ := h
    rcases Nat.lt_or_ge x span.last with hin | hout
    · exact ⟨[], span, spans, rfl, ⟨ha, hin⟩, rfl, hlt, ht⟩
    · obtain ⟨front, middle, back, rfl, hc, htail⟩ := ih ht hout
      exact ⟨span :: front, middle, back, rfl, hc, htail⟩

/-- The spans over an offset that pass a test of their value: there is exactly
one in the window, if its value passes, and none elsewhere. -/
theorem Tiles.filter_covers {x : ℕ} {v : V} (hv : ∀ span ∈ spans, span.Covers x → span.value = v) (test : V → Bool) :
    (spans.filter fun span => span.Covers x && test span.value).map Span.value =
      if (a ≤ x ∧ x < b) ∧ test v = true then [v] else [] := by
  induction spans generalizing a with
  | nil =>
    have hab : a = b := h
    rw [List.filter_nil, List.map_nil, if_neg (by omega)]
  | cons span spans ih =>
    obtain ⟨rfl, hlt, ht⟩ := h
    have hle := ht.le
    have hi := ih ht fun other hm => hv other (List.mem_cons_of_mem _ hm)
    rw [List.filter_cons]
    by_cases hc : span.Covers x
    · have hval := hv span List.mem_cons_self hc
      obtain ⟨h1, h2⟩ := hc
      have hout : ¬((span.last ≤ x ∧ x < b) ∧ test v = true) := by omega
      have hin : span.Covers x := ⟨h1, h2⟩
      rw [if_neg hout] at hi
      rw [hval, decide_eq_true hin, Bool.true_and]
      by_cases htest : test v = true
      · rw [if_pos htest, if_pos ⟨⟨h1, by omega⟩, htest⟩, List.map_cons, hi, hval]
      · rw [if_neg htest, if_neg fun h => htest h.2, hi]
    · have hc' : ¬(span.first ≤ x ∧ x < span.last) := hc
      rw [decide_eq_false hc, Bool.false_and, if_neg Bool.false_ne_true, hi]
      have hiff : (span.last ≤ x ∧ x < b) ↔ (span.first ≤ x ∧ x < b) := by omega
      simp only [hiff]

end

end NeoLoader.Tiling
