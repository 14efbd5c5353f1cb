import Mathlib.Data.List.Basic

/-!
# Texts with place markers

A place marker is a percent sign with one or two digits behind it. What is filled in takes the place of all markers
with the least number. A text is read as pieces, which are markers and other bytes. Pieces that stand apart are read
again from their text.
-/

namespace NeoLoader.PlaceMarkers

/-- A piece of a text. -/
inductive Piece where
  /-- A byte that is in no marker. -/
  | char (b : UInt8)
  /-- A marker of one digit. -/
  | one (d : ℕ)
  /-- A marker of two digits. -/
  | two (d e : ℕ)
  deriving DecidableEq

open Piece

/-- The digit that a byte is. -/
def digit (b : UInt8) : Option ℕ := if 48 ≤ b.toNat ∧ b.toNat ≤ 57 then some (b.toNat - 48) else none

/-- The number of a marker. -/
def Piece.number : Piece → Option ℕ
  | char _ => none
  | one d => some d
  | two d e => some (10 * d + e)

/-- The bytes of a piece. -/
def Piece.bytes : Piece → List UInt8
  | char b => [b]
  | one d => [37, UInt8.ofNat (48 + d)]
  | two d e => [37, UInt8.ofNat (48 + d), UInt8.ofNat (48 + e)]

/-- The text of pieces. -/
def text (ps : List Piece) : List UInt8 := ps.flatMap Piece.bytes

/-- The pieces of a text. -/
def pieces : List UInt8 → List Piece
  | [] => []
  | [b] => [char b]
  | [b, c] =>
    if b = 37 then
      match digit c with
      | some d => [one d]
      | none => [char b, char c]
    else [char b, char c]
  | b :: c :: e :: bs =>
    if b = 37 then
      match digit c, digit e with
      | some d, some f => two d f :: pieces bs
      | some d, none => one d :: pieces (e :: bs)
      | none, _ => char b :: pieces (c :: e :: bs)
    else char b :: pieces (c :: e :: bs)

/-- The numbers of the markers. -/
def numbers (ps : List Piece) : List ℕ := ps.filterMap number

/-- The markers with a number are filled in. -/
def fill (n : ℕ) (a : List UInt8) (ps : List Piece) : List Piece :=
  ps.flatMap fun p => if p.number = some n then a.map char else [p]

/-- What is filled in takes the place of the markers with the least number. -/
def arg (a s : List UInt8) : List UInt8 :=
  match (numbers (pieces s)).min? with
  | none => s
  | some n => text (fill n a (pieces s))

/-- What comes next belongs to no marker before it. -/
def BeginsApart : List Piece → Prop
  | char c :: _ => c ≠ 37 ∧ digit c = none
  | _ => False

/-- The pieces stand apart: a percent sign is no marker, and a marker of one digit is none of two. -/
def Apart : List Piece → Prop
  | [] => True
  | char b :: ps => (b = 37 → BeginsApart ps) ∧ Apart ps
  | one d :: ps => d < 10 ∧ BeginsApart ps ∧ Apart ps
  | two d e :: ps => d < 10 ∧ e < 10 ∧ Apart ps

theorem digit_ofNat {d : ℕ} (h : d < 10) : digit (UInt8.ofNat (48 + d)) = some d := by
  have hall : ∀ d < 10, digit (UInt8.ofNat (48 + d)) = some d := by decide
  exact hall d h

theorem pieces_char {b : UInt8} (h : b ≠ 37) (bs : List UInt8) : pieces (b :: bs) = char b :: pieces bs := by
  match bs with
  | [] => rfl
  | [c] => simp [pieces, h]
  | _ :: _ :: _ => simp [pieces, h]

theorem pieces_percent {c : UInt8} (h : digit c = none) (bs : List UInt8) :
    pieces (37 :: c :: bs) = char 37 :: pieces (c :: bs) := by
  match bs with
  | [] => simp [pieces, h]
  | _ :: _ => simp [pieces, h]

theorem pieces_one {d : ℕ} (h : d < 10) {c : UInt8} (hc : digit c = none) (bs : List UInt8) :
    pieces (37 :: UInt8.ofNat (48 + d) :: c :: bs) = one d :: pieces (c :: bs) := by
  simp only [pieces, digit_ofNat h, hc, if_true]

theorem pieces_two {d e : ℕ} (hd : d < 10) (he : e < 10) (bs : List UInt8) :
    pieces (37 :: UInt8.ofNat (48 + d) :: UInt8.ofNat (48 + e) :: bs) = two d e :: pieces bs := by
  simp only [pieces, digit_ofNat hd, digit_ofNat he, if_true]

variable {ps : List Piece}

/-- Pieces that stand apart are read from their text. -/
theorem pieces_text (h : Apart ps) : pieces (text ps) = ps := by
  induction ps with
  | nil => rfl
  | cons p ps ih =>
    have hcons : text (p :: ps) = p.bytes ++ text ps := rfl
    rw [hcons]
    cases p with
    | char b =>
      by_cases hb : b = 37
      · obtain ⟨hbegins, hps⟩ := h
        match ps, hbegins hb with
        | char c :: ps, ⟨_, hc⟩ =>
          rw [hb]
          exact (pieces_percent hc _).trans (congrArg (char 37 :: ·) (ih hps))
      · exact (pieces_char hb _).trans (congrArg (char b :: ·) (ih h.2))
    | one d =>
      obtain ⟨hd, hbegins, hps⟩ := h
      match ps, hbegins with
      | char c :: ps, ⟨_, hc⟩ => exact (pieces_one hd hc _).trans (congrArg (one d :: ·) (ih hps))
    | two d e => exact (pieces_two h.1 h.2.1 _).trans (congrArg (two d e :: ·) (ih h.2.2))

theorem apart_chars {a : List UInt8} (ha : ∀ b ∈ a, b ≠ 37) (h : Apart ps) : Apart (a.map char ++ ps) := by
  induction a with
  | nil => exact h
  | cons b a ih =>
    obtain ⟨hb, hrest⟩ := List.forall_mem_cons.mp ha
    exact ⟨fun hpercent => absurd hpercent hb, ih hrest⟩

theorem BeginsApart.fill (h : BeginsApart ps) (n : ℕ) (a : List UInt8) : BeginsApart (fill n a ps) := by
  match ps, h with
  | char c :: ps, h => exact h

/-- Pieces stand apart after markers were filled in. -/
theorem Apart.fill (h : Apart ps) (n : ℕ) {a : List UInt8} (ha : ∀ b ∈ a, b ≠ 37) : Apart (fill n a ps) := by
  induction ps with
  | nil => trivial
  | cons p ps ih =>
    have hcons : PlaceMarkers.fill n a (p :: ps) =
        (if p.number = some n then a.map char else [p]) ++ PlaceMarkers.fill n a ps := rfl
    rw [hcons]
    split_ifs
    · exact apart_chars ha (ih (by cases p <;> simp_all [Apart]))
    · cases p with
      | char b => exact ⟨fun hb => (h.1 hb).fill n a, ih h.2⟩
      | one d => exact ⟨h.1, h.2.1.fill n a, ih h.2.2⟩
      | two d e => exact ⟨h.1, h.2.1, ih h.2.2⟩

theorem arg_text (h : Apart ps) {n : ℕ} (hmin : (numbers ps).min? = some n) (a : List UInt8) :
    arg a (text ps) = text (fill n a ps) := by
  rw [arg, pieces_text h, hmin]

/-- The other numbers are left when markers are filled in. -/
theorem numbers_fill (n : ℕ) (a : List UInt8) (ps : List Piece) :
    numbers (fill n a ps) = (numbers ps).filter (· ≠ n) := by
  induction ps with
  | nil => rfl
  | cons p ps ih =>
    have hcons : fill n a (p :: ps) = (if p.number = some n then a.map char else [p]) ++ fill n a ps := rfl
    have happend : ∀ ps ps' : List Piece, numbers (ps ++ ps') = numbers ps ++ numbers ps' :=
      fun _ _ => List.filterMap_append
    rw [hcons, happend, ih]
    cases hp : p.number with
    | none => simp [numbers, hp]
    | some k =>
      by_cases hk : k = n
      · have hchars : numbers (a.map char) = [] := by simp [numbers, Function.comp_def, Piece.number]
        rw [hk, if_pos rfl, hchars]
        simp [hk, numbers, hp]
      · simp [hk, numbers, hp]

/-- Markers of several numbers are filled in, one after the other. -/
def fills (args : List (ℕ × List UInt8)) (ps : List Piece) : List Piece := args.foldl (fun ps e => fill e.1 e.2 ps) ps

variable (args : List (ℕ × List UInt8))

theorem fills_append (ps qs : List Piece) : fills args (ps ++ qs) = fills args ps ++ fills args qs := by
  induction args generalizing ps qs with
  | nil => rfl
  | cons e args ih =>
    have hfill : fill e.1 e.2 (ps ++ qs) = fill e.1 e.2 ps ++ fill e.1 e.2 qs := List.flatMap_append
    have hstep : ∀ ps, fills (e :: args) ps = fills args (fill e.1 e.2 ps) := fun _ => rfl
    rw [hstep, hfill, ih, hstep, hstep]

/-- Bytes that are in no marker stay. -/
theorem fills_chars (a : List UInt8) : fills args (a.map char) = a.map char := by
  have hfill : ∀ n x, fill n x (a.map char) = a.map char := by
    intro n x
    induction a with
    | nil => rfl
    | cons b a ih => exact congrArg (char b :: ·) ih
  induction args with
  | nil => rfl
  | cons e args ih =>
    have hstep : fills (e :: args) (a.map char) = fills args (fill e.1 e.2 (a.map char)) := rfl
    rw [hstep, hfill, ih]

/-- A marker is filled in with what belongs to its number, and stays if there is nothing. -/
theorem fills_marker {p : Piece} {n : ℕ} (h : p.number = some n) :
    fills args [p] = (args.lookup n).elim [p] fun a => a.map char := by
  induction args with
  | nil => rfl
  | cons e args ih =>
    obtain ⟨k, a⟩ := e
    have hstep : fills ((k, a) :: args) [p] = fills args (fill k a [p]) := rfl
    rw [hstep]
    by_cases hn : n = k
    · have hfill : fill k a [p] = a.map char := by simp [fill, h, hn]
      simp [hfill, fills_chars, hn]
    · have hfill : fill k a [p] = [p] := by simp [fill, h, hn]
      rw [hfill, ih, List.lookup_cons, beq_false_of_ne hn]

/-- Three numbers are the least of a list, in their order. -/
structure Least (l : List ℕ) (first second third : ℕ) : Prop where
  /-- The first one is less than the second. -/
  first_lt : first < second
  /-- The second one is less than the third. -/
  second_lt : second < third
  /-- The first one is in the list. -/
  first_mem : first ∈ l
  /-- The second one is in the list. -/
  second_mem : second ∈ l
  /-- The third one is in the list. -/
  third_mem : third ∈ l
  /-- The others are larger. -/
  rest : ∀ n ∈ l, n = first ∨ n = second ∨ third ≤ n

theorem exists_min {l : List ℕ} {n : ℕ} (h : n ∈ l) : ∃ m, l.min? = some m ∧ m ∈ l ∧ ∀ k ∈ l, m ≤ k := by
  have hne : l.min? ≠ none := fun hnone => List.ne_nil_of_mem h (List.min?_eq_none_iff.mp hnone)
  obtain ⟨m, hm⟩ := Option.ne_none_iff_exists'.mp hne
  exact ⟨m, hm, (List.min?_eq_some_iff.mp hm).1, (List.min?_eq_some_iff.mp hm).2⟩

theorem exists_min_filter {l : List ℕ} {n first : ℕ} (h : n ∈ l) (hne : n ≠ first) :
    ∃ m, (l.filter (· ≠ first)).min? = some m ∧ m ∈ l ∧ m ≠ first ∧ ∀ k ∈ l, k ≠ first → m ≤ k := by
  have hleft : n ∈ l.filter (· ≠ first) := by simp [h, hne]
  obtain ⟨m, hmin, hm, hle⟩ := exists_min hleft
  simp at hm hle
  exact ⟨m, hmin, hm.1, hm.2, hle⟩

/-- A list with three numbers has three least ones, and filling in three times fills in their markers. -/
theorem arg_arg_arg (h : Apart ps) {a b c : ℕ} (hab : a < b) (hbc : b < c)
    (ha : a ∈ numbers ps) (hb : b ∈ numbers ps) (hc : c ∈ numbers ps) {x y : List UInt8} (hx : ∀ b ∈ x, b ≠ 37)
    (hy : ∀ b ∈ y, b ≠ 37) (z : List UInt8) : ∃ first second third, Least (numbers ps) first second third ∧
      arg z (arg y (arg x (text ps))) = text (fills [(first, x), (second, y), (third, z)] ps) := by
  obtain ⟨first, hfirst, hfirstmem, hfirstle⟩ := exists_min ha
  have hone := h.fill first hx
  have hother : ∃ n ∈ numbers ps, n ≠ first := by
    by_cases hsame : b = first
    · exact ⟨c, hc, by omega⟩
    · exact ⟨b, hb, hsame⟩
  obtain ⟨n, hn, hne⟩ := hother
  obtain ⟨second, hsecond, hsecondmem, hsecondne, hsecondle⟩ := exists_min_filter hn hne
  rw [← numbers_fill first x] at hsecond
  have htwo := hone.fill second hy
  have hthird : ∃ n ∈ numbers ps, n ≠ first ∧ n ≠ second := by
    by_cases hcfirst : c ≠ first ∧ c ≠ second
    · exact ⟨c, hc, hcfirst⟩
    · by_cases hbfirst : b ≠ first ∧ b ≠ second
      · exact ⟨b, hb, hbfirst⟩
      · exact ⟨a, ha, by omega, by omega⟩
  obtain ⟨k, hk, hkfirst, hksecond⟩ := hthird
  have hleft : k ∈ numbers (fill first x ps) := by simp [numbers_fill, hk, hkfirst]
  obtain ⟨third, hmin, hthirdmem, hthirdne, hthirdle⟩ := exists_min_filter hleft hksecond
  rw [← numbers_fill second y] at hmin
  simp only [numbers_fill, List.mem_filter, decide_eq_true_eq] at hthirdmem hthirdle
  refine ⟨first, second, third, ⟨?_, ?_, hfirstmem, hsecondmem, hthirdmem.1, fun n hn => ?_⟩, ?_⟩
  · exact Nat.lt_of_le_of_ne (hfirstle second hsecondmem) hsecondne.symm
  · exact Nat.lt_of_le_of_ne (hsecondle third hthirdmem.1 hthirdmem.2) hthirdne.symm
  · by_cases hnfirst : n = first
    · exact Or.inl hnfirst
    · by_cases hnsecond : n = second
      · exact Or.inr (Or.inl hnsecond)
      · exact Or.inr (Or.inr (hthirdle n ⟨hn, hnfirst⟩ hnsecond))
  · rw [arg_text h hfirst, arg_text hone hsecond, arg_text htwo hmin]
    rfl

end NeoLoader.PlaceMarkers
