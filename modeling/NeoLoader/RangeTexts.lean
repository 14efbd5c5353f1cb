import NeoLoader.PartStates
import NeoLoader.RangeMapIteration
import NeoLoader.TextEncodings

/-!
# The ranges of a share map as text

A share map lists the ranges that have one of some states in a text, and sets the ranges that a
text lists. A list that it made itself gives the same bytes back. In another one each range is
checked when its turn comes, so that those before an invalid one have been set already.
-/

namespace NeoLoader.RangeTexts

open StepFunction Tiling RangeMap PartStates TextEncodings

section Texts

/-- `QChar::isSpace`. -/
def isSpace (c : Char) : Bool :=
  c.toNat ∈ [0x20, 0x85, 0xA0, 0x1680, 0x2028, 0x2029, 0x202F, 0x205F, 0x3000] ||
    0x9 ≤ c.toNat && c.toNat ≤ 0xD || 0x2000 ≤ c.toNat && c.toNat ≤ 0x200A

/-- `QString::trimmed`. -/
def trimmed (text : List Char) : List Char :=
  ((text.dropWhile isSpace).reverse.dropWhile isSpace).reverse

def split2 (text : List Char) (Separator : Char) : List Char × List Char :=
  if Separator ∈ text then
    (trimmed (text.takeWhile (· ≠ Separator)), trimmed ((text.dropWhile (· ≠ Separator)).drop 1))
  else (trimmed text, [])

/-- `QString("%1-%2")` with the two ends of a range. -/
def rangeText (ends : ℕ × ℕ) : List Char :=
  Nat.toDigits 10 ends.1 ++ '-' :: Nat.toDigits 10 ends.2

variable (toULongLong : List Char → ℕ)

/-- The two ends that an entry of a list gives. -/
def rangeEnds (Range : List Char) : ℕ × ℕ :=
  (toULongLong (split2 Range '-').1, toULongLong (split2 Range '-').2)

/-- The ends of all ranges of a list. -/
def listed (Ranges : List Char) : List (ℕ × ℕ) := (Ranges.splitOn ',').map (rangeEnds toULongLong)

/-- What `QString::toULongLong` is relied on for. -/
structure ReadsNumbers : Prop where
  /-- Numbers are read back from their digits. -/
  digits : ∀ n < 2 ^ 64, toULongLong (Nat.toDigits 10 n) = n
  /-- The result is zero without a number. -/
  empty : toULongLong [] = 0

theorem toNat_of_mem_toDigits {n : ℕ} {c : Char} (h : c ∈ Nat.toDigits 10 n) : 48 ≤ c.toNat ∧ c.toNat ≤ 57 := by
  have hdigit := Nat.isDigit_of_mem_toDigits (by omega) (by omega) h
  simp only [Char.isDigit, Bool.and_eq_true, decide_eq_true_eq] at hdigit
  exact hdigit

theorem isSpace_of_mem_toDigits {n : ℕ} {c : Char} (h : c ∈ Nat.toDigits 10 n) : isSpace c = false := by
  obtain ⟨hlow, hhigh⟩ := toNat_of_mem_toDigits h
  simp only [isSpace, List.mem_cons, List.not_mem_nil, or_false, Bool.or_eq_false_iff,
    Bool.and_eq_false_iff, decide_eq_false_iff_not]
  omega

theorem dropWhile_isSpace {cs : List Char} (h : ∀ c ∈ cs, isSpace c = false) : cs.dropWhile isSpace = cs := by
  cases cs with
  | nil => rfl
  | cons c cs => rw [List.dropWhile_cons, h c List.mem_cons_self, if_neg Bool.false_ne_true]

theorem trimmed_toDigits (blank : List Char) (hblank : ∀ c ∈ blank, isSpace c = true) (n : ℕ) :
    trimmed (blank ++ Nat.toDigits 10 n) = Nat.toDigits 10 n := by
  have hdigits : ∀ c ∈ Nat.toDigits 10 n, isSpace c = false := fun c hc =>
    isSpace_of_mem_toDigits hc
  rw [trimmed, List.dropWhile_append_of_pos hblank, dropWhile_isSpace hdigits,
    dropWhile_isSpace fun c hc => hdigits c (List.mem_reverse.mp hc), List.reverse_reverse]

theorem notMem_toDigits {c : Char} (h : c.toNat < 48 ∨ 57 < c.toNat) (n : ℕ) : c ∉ Nat.toDigits 10 n := by
  intro hc
  have hdigit := toNat_of_mem_toDigits hc
  omega

/-- Two numbers are split at a mark between them, with blanks before them or without. -/
theorem split2_toDigits (blank : List Char) (hblank : ∀ c ∈ blank, isSpace c = true) {mark : Char}
    (hmark : mark.toNat < 48 ∨ 57 < mark.toNat) (hspace : isSpace mark = false) (n m : ℕ) :
    split2 (blank ++ Nat.toDigits 10 n ++ mark :: Nat.toDigits 10 m) mark = (Nat.toDigits 10 n, Nat.toDigits 10 m) := by
  have hplain : ∀ c ∈ blank ++ Nat.toDigits 10 n, c ≠ mark := by
    intro c hc
    rcases List.mem_append.mp hc with hc | hc
    · rintro rfl
      exact Bool.false_ne_true (hspace.symm.trans (hblank _ hc))
    · rintro rfl
      exact notMem_toDigits hmark _ hc
  have htrim := trimmed_toDigits [] nofun m
  rw [List.nil_append] at htrim
  rw [split2, if_pos (by simp), List.takeWhile_append_of_pos (by simpa using hplain),
    List.dropWhile_append_of_pos (by simpa using hplain), List.takeWhile_cons_of_neg (by simp),
    List.dropWhile_cons_of_neg (by simp), List.append_nil, trimmed_toDigits blank hblank,
    List.drop_succ_cons, List.drop_zero, htrim]

theorem rangeEnds_rangeText {toULongLong : List Char → ℕ} (hread : ReadsNumbers toULongLong)
    (blank : List Char) (hblank : ∀ c ∈ blank, isSpace c = true) {ends : ℕ × ℕ}
    (hfirst : ends.1 < 2 ^ 64) (hlast : ends.2 < 2 ^ 64) : rangeEnds toULongLong (blank ++ rangeText ends) = ends := by
  have hsplit := split2_toDigits blank hblank (Or.inl (by decide : '-'.toNat < 48)) rfl ends.1 ends.2
  rw [List.append_assoc] at hsplit
  rw [rangeEnds, rangeText, hsplit, hread.digits _ hfirst, hread.digits _ hlast]

/-- A text of ranges, as `GetRanges` puts it together. -/
def listText : List (ℕ × ℕ) → List Char
  | [] => []
  | ends :: rest => rangeText ends ++ rest.flatMap fun ends => ',' :: ' ' :: rangeText ends

theorem comma_notMem_rangeText (ends : ℕ × ℕ) : ',' ∉ rangeText ends := by
  rw [rangeText, List.mem_append, List.mem_cons]
  rintro (h | h | h)
  · exact notMem_toDigits (Or.inl (by decide)) _ h
  · exact absurd h (by decide)
  · exact notMem_toDigits (Or.inl (by decide)) _ h

/-- A text without a comma comes before what follows it. -/
theorem splitOn_flatMap {text : List Char} (htext : ',' ∉ text) (rest : List (ℕ × ℕ)) :
    (text ++ rest.flatMap fun ends => ',' :: ' ' :: rangeText ends).splitOn ',' =
      text :: rest.map fun ends => ' ' :: rangeText ends := by
  induction rest generalizing text with
  | nil => rw [List.flatMap_nil, List.append_nil, List.splitOn_eq_singleton htext, List.map_nil]
  | cons ends rest ih =>
    have hcomma : ',' ∉ ' ' :: rangeText ends := by
      rw [List.mem_cons]
      rintro (h | h)
      · exact absurd h (by decide)
      · exact comma_notMem_rangeText ends h
    rw [List.flatMap_cons, List.cons_append, List.splitOn_append_cons_self_of_not_mem htext, ih hcomma, List.map_cons]

/-- The ranges of a text are read back, in their order. -/
theorem listed_listText {toULongLong : List Char → ℕ} (hread : ReadsNumbers toULongLong)
    {ends : ℕ × ℕ} {rest : List (ℕ × ℕ)} (hfit : ∀ e ∈ ends :: rest, e.1 < 2 ^ 64 ∧ e.2 < 2 ^ 64) :
    listed toULongLong (listText (ends :: rest)) = ends :: rest := by
  obtain ⟨hfirst, hlast⟩ := hfit ends List.mem_cons_self
  have hhead := rangeEnds_rangeText hread [] nofun hfirst hlast
  rw [listed, listText, splitOn_flatMap (comma_notMem_rangeText ends), List.map_cons, List.map_map]
  rw [List.nil_append] at hhead
  rw [hhead]
  congr 1
  refine (List.map_congr_left fun e he => ?_).trans (List.map_id rest)
  obtain ⟨hfirst, hlast⟩ := hfit e (List.mem_cons_of_mem _ he)
  exact rangeEnds_rangeText hread [' '] (fun c hc => List.mem_singleton.mp hc ▸ rfl) hfirst hlast

theorem listed_nil {toULongLong : List Char → ℕ} (hread : ReadsNumbers toULongLong) :
    listed toULongLong [] = [(0, 0)] := by
  have hparts : listed toULongLong [] = [(toULongLong [], toULongLong [])] := rfl
  rw [hparts, hread.empty]

end Texts

section Map

/-- The ranges that the loop of `GetRanges` visits. Without fuel there is no result. -/
def visit (map : CRangeMap (BitVec 16)) (uTest : BitVec 16) : ℕ → ℕ → ℕ → BitVec 16 → Option (List (Span (BitVec 16)))
  | 0, _, _, _ => none
  | fuel + 1, uBegin, uEnd, uState =>
    let next := map.getNextRange shareMapOps uBegin uEnd uState uTest none
    if next.found then
      (visit map uTest fuel next.uBegin next.uEnd next.uState).map (⟨next.uBegin, next.uEnd, next.uState⟩ :: ·)
    else some []

/-- Whether a state has one of the tested ones. -/
def tested (uTest v : BitVec 16) : Bool :=
  shareMapOps.stateSet (shareMapOps.mergeState v uTest .eInter)

/-- The body of the loop of `GetRanges`. -/
def appendRange (uTest : BitVec 16) (Ranges : List Char) (range : Span (BitVec 16)) : List Char :=
  if tested uTest range.value then
    (if Ranges.length > 0 then Ranges ++ [',', ' '] else Ranges) ++ rangeText (range.first, range.last)
  else Ranges

/-- `CShareMap::GetRanges`. -/
def getRanges (map : CRangeMap (BitVec 16)) (uTest : BitVec 16) : List Char :=
  ((visit map uTest (map.getSize + 1) 0 0 0).getD []).foldl (appendRange uTest) []

/-- The check of `SetRanges`. -/
def InMap (size : ℕ) (ends : ℕ × ℕ) : Prop := ends.1 ≤ ends.2 ∧ ends.2 ≤ size

instance (size : ℕ) (ends : ℕ × ℕ) : Decidable (InMap size ends) := instDecidableAnd

/-- The loop of `SetRanges` over the ranges of the list. -/
def setListed (uState : BitVec 16) : List (ℕ × ℕ) → CRangeMap (BitVec 16) → Bool × CRangeMap (BitVec 16)
  | [], map => (true, map)
  | ends :: rest, map =>
    if InMap map.getSize ends then
      setListed uState rest (map.setRange shareMapOps ends.1 ends.2 uState .eSet)
    else (false, map)

/-- `CShareMap::SetRanges`. -/
def setRanges (toULongLong : List Char → ℕ) (Ranges : List Char) (uState : BitVec 16)
    (map : CRangeMap (BitVec 16)) : Bool × CRangeMap (BitVec 16) :=
  setListed uState (listed toULongLong Ranges) map

/-- The ranges of the list before the first one that is not in the map. -/
def beforeInvalid (size : ℕ) (ends : List (ℕ × ℕ)) : List (ℕ × ℕ) :=
  ends.takeWhile fun e => InMap size e

section Visit

variable {size : ℕ} {map : CRangeMap (BitVec 16)} {uTest : BitVec 16}

/-- What the loop of `GetRanges` has seen of a map from an offset on. -/
structure Visited (size : ℕ) (map : CRangeMap (BitVec 16)) (uTest : BitVec 16) (cur : ℕ)
    (ranges : List (Span (BitVec 16))) : Prop where
  /-- The ranges lie in the map. -/
  inMap : ∀ range ∈ ranges, InMap size (range.first, range.last)
  /-- All bytes of a range have its state. -/
  same : ∀ range ∈ ranges, ∀ x, range.Covers x → seen shareMapOps map uTest x = some range.value
  /-- All bytes are in some range. -/
  covered : ∀ x, cur ≤ x → x < size → ∃ range ∈ ranges, range.Covers x

/-- The loop ends, and visits all bytes from its offset on. -/
theorem visit_spec (h : Canonical shareMapOps size map) (hsize : size + 1 < 2 ^ 64) {fuel uBegin
    uEnd : ℕ} (uState : BitVec 16) (hle : uBegin ≤ uEnd) (hfuel : size - uEnd < fuel) (hend : uEnd ≤ size) :
    ∃ ranges, visit map uTest fuel uBegin uEnd uState = some ranges ∧
      Visited size map uTest uEnd ranges := by
  induction fuel generalizing uBegin uEnd uState with
  | zero => omega
  | succ fuel ih =>
    have hcur : (if uBegin > uEnd then uBegin else uEnd) = uEnd := if_neg (by omega)
    rcases Nat.lt_or_ge uEnd size with hin | hpast
    · obtain ⟨hfound, -⟩ := getNextRange_found h (by omega) hcur hin uState uTest (hintOk_none map)
      rw [visit]
      generalize map.getNextRange shareMapOps uBegin uEnd uState uTest none = next at hfound
      have hbegin := hfound.uBegin_le
      have hnext := hfound.lt_uEnd
      have hlast := hfound.uEnd_le
      have hle' : next.uBegin ≤ next.uEnd := by omega
      obtain ⟨ranges, hvisit, hrest⟩ := ih next.uState hle' (by omega) hlast
      refine ⟨⟨next.uBegin, next.uEnd, next.uState⟩ :: ranges, ?_, ?_, ?_, ?_⟩
      · rw [if_pos hfound.found, hvisit, Option.map_some]
      · exact List.forall_mem_cons.mpr ⟨⟨by dsimp only; omega, hlast⟩, hrest.inMap⟩
      · exact List.forall_mem_cons.mpr ⟨fun x hx => hfound.same x hx.1 hx.2, hrest.same⟩
      · intro x hx hxs
        rcases Nat.lt_or_ge x next.uEnd with hthis | hlater
        · exact ⟨_, List.mem_cons_self, by dsimp only; omega, hthis⟩
        · obtain ⟨range, hm, hc⟩ := hrest.covered x hlater hxs
          exact ⟨range, List.mem_cons_of_mem _ hm, hc⟩
    · have hnone := getNextRange_not_found h (by omega) hcur (by omega) hpast uState uTest (hintOk_none map)
      refine ⟨[], ?_, nofun, nofun, fun x hx hxs => by omega⟩
      rw [visit, hnone]
      rfl

theorem tested_iff (uTest v : BitVec 16) : tested uTest v = true ↔ v &&& uTest ≠ 0 := bne_iff_ne

theorem tested_masked (uTest v : BitVec 16) : tested uTest (CRangeMap.masked shareMapOps uTest v) = tested uTest v := by
  rw [CRangeMap.masked]
  split_ifs with hmask
  · have hmerge : v &&& uTest &&& uTest = v &&& uTest := by
      rw [BitVec.and_assoc, BitVec.and_self]
    exact congrArg shareMapOps.stateSet hmerge
  · rfl

/-- The ranges that `GetRanges` lists. -/
def kept (uTest : BitVec 16) (ranges : List (Span (BitVec 16))) : List (ℕ × ℕ) :=
  (ranges.filter fun range => tested uTest range.value).map fun range => (range.first, range.last)

theorem kept_cons (uTest : BitVec 16) (range : Span (BitVec 16)) (ranges : List (Span (BitVec 16))) :
    kept uTest (range :: ranges) = if tested uTest range.value then (range.first, range.last) :: kept uTest ranges
      else kept uTest ranges := by
  rw [kept, List.filter_cons]
  split_ifs <;> rfl

/-- Ranges that are listed behind others follow a comma. -/
theorem foldl_appendRange {Ranges : List Char} (hne : Ranges ≠ []) (ranges : List (Span (BitVec 16))) :
    ranges.foldl (appendRange uTest) Ranges =
      Ranges ++ (kept uTest ranges).flatMap fun ends => ',' :: ' ' :: rangeText ends := by
  induction ranges generalizing Ranges with
  | nil => exact (List.append_nil _).symm
  | cons range ranges ih =>
    rw [List.foldl_cons, kept_cons, appendRange, if_pos (List.length_pos_of_ne_nil hne)]
    split_ifs with htest
    · rw [ih (by simp), List.flatMap_cons]
      simp only [List.append_assoc, List.cons_append, List.nil_append]
    · exact ih hne

/-- The ranges that are listed make up the text. -/
theorem foldl_appendRange_nil (ranges : List (Span (BitVec 16))) :
    ranges.foldl (appendRange uTest) [] = listText (kept uTest ranges) := by
  induction ranges with
  | nil => rfl
  | cons range ranges ih =>
    have hfirst : appendRange uTest [] range =
        if tested uTest range.value then rangeText (range.first, range.last) else [] := rfl
    rw [List.foldl_cons, kept_cons, hfirst]
    split_ifs with htest
    · rw [listText, foldl_appendRange (by simp [rangeText])]
    · exact ih

/-- `GetRanges` lists ranges of the map that cover exactly the bytes with a tested state. -/
theorem exists_getRanges (h : Canonical shareMapOps size map) (hsize : size + 1 < 2 ^ 64) (uTest : BitVec 16) :
    ∃ ends, getRanges map uTest = listText ends ∧ (∀ e ∈ ends, InMap size e) ∧
      ∀ x < size, stateAt shareMapOps map x &&& uTest ≠ 0 ↔ ∃ e ∈ ends, e.1 ≤ x ∧ x < e.2 := by
  obtain ⟨ranges, hvisit, hspec⟩ : ∃ ranges, visit map uTest (size + 1) 0 0 0 = some ranges ∧
      Visited size map uTest 0 ranges :=
    visit_spec h hsize 0 (Nat.le_refl 0) (by omega) (Nat.zero_le size)
  have hstate : ∀ range ∈ ranges, ∀ x, range.Covers x → x < size →
      tested uTest range.value = tested uTest (stateAt shareMapOps map x) := by
    intro range hm x hx hxs
    have hseen := hspec.same range hm x hx
    rw [seen, h.valueAt_eq_stateAt hxs, Option.map_some, Option.some.injEq] at hseen
    rw [← hseen, tested_masked]
  refine ⟨kept uTest ranges, ?_, fun e he => ?_, fun x hx => ?_⟩
  · rw [getRanges, h.getSize, hvisit, Option.getD_some, foldl_appendRange_nil]
  · obtain ⟨range, hm, rfl⟩ := List.mem_map.mp he
    exact hspec.inMap range (List.mem_filter.mp hm).1
  · rw [← tested_iff]
    constructor
    · intro htest
      obtain ⟨range, hm, hc⟩ := hspec.covered x (Nat.zero_le x) hx
      have hkeep : range ∈ ranges.filter fun range => tested uTest range.value :=
        List.mem_filter.mpr ⟨hm, (hstate range hm x hc hx).trans htest⟩
      exact ⟨_, List.mem_map_of_mem hkeep, hc⟩
    · rintro ⟨e, he, hc⟩
      obtain ⟨range, hm, rfl⟩ := List.mem_map.mp he
      obtain ⟨hin, htest⟩ := List.mem_filter.mp hm
      exact (hstate range hin x hc hx).symm.trans htest

end Visit

section Set

variable {size : ℕ} {map : CRangeMap (BitVec 16)} {uState : BitVec 16}

/-- What `SetRanges` makes of the ranges of a list. -/
structure Applied (size : ℕ) (uState : BitVec 16) (ends : List (ℕ × ℕ))
    (map : CRangeMap (BitVec 16)) (r : Bool × CRangeMap (BitVec 16)) : Prop where
  /-- The result tells whether all ranges are in the map. -/
  result : r.1 = true ↔ ∀ e ∈ ends, InMap size e
  /-- The map stays one. -/
  canonical : Canonical shareMapOps size r.2
  /-- A byte in a range before the first invalid one has the state. -/
  inside : ∀ x, (∃ e ∈ beforeInvalid size ends, e.1 ≤ x ∧ x < e.2) → stateAt shareMapOps r.2 x = uState
  /-- Any other byte is left. -/
  outside : ∀ x, (¬ ∃ e ∈ beforeInvalid size ends, e.1 ≤ x ∧ x < e.2) →
    stateAt shareMapOps r.2 x = stateAt shareMapOps map x

/-- The loop sets the ranges before the first invalid one. -/
theorem applied_setListed (h : Canonical shareMapOps size map) (hsize : size < 2 ^ 64)
    (uState : BitVec 16) (ends : List (ℕ × ℕ)) : Applied size uState ends map (setListed uState ends map) := by
  induction ends generalizing map with
  | nil =>
    refine ⟨iff_of_true rfl nofun, h, fun x hx => ?_, fun x _ => rfl⟩
    obtain ⟨e, he, -⟩ := hx
    cases he
  | cons e ends ih =>
    rw [setListed, h.getSize]
    split_ifs with hvalid
    · have hrest := ih (setRange_canonical_of_le h hsize hvalid.1 hvalid.2 uState .eSet)
      have hset := stateAt_setRange_of_le h hsize hvalid.1 hvalid.2 uState .eSet
      have hbefore : beforeInvalid size (e :: ends) = e :: beforeInvalid size ends :=
        List.takeWhile_cons_of_pos (decide_eq_true hvalid)
      have hin : ∀ x, (∃ e' ∈ e :: beforeInvalid size ends, e'.1 ≤ x ∧ x < e'.2) ↔
          (e.1 ≤ x ∧ x < e.2) ∨ ∃ e' ∈ beforeInvalid size ends, e'.1 ≤ x ∧ x < e'.2 := by
        simp only [List.mem_cons, exists_eq_or_imp, implies_true]
      constructor
      · rw [hrest.result, List.forall_mem_cons, and_iff_right hvalid]
      · exact hrest.canonical
      · intro x hx
        rw [hbefore, hin] at hx
        by_cases hlater : ∃ e' ∈ beforeInvalid size ends, e'.1 ≤ x ∧ x < e'.2
        · exact hrest.inside x hlater
        · rw [hrest.outside x hlater, hset, if_pos (hx.resolve_right hlater)]
          rfl
      · intro x hx
        rw [hbefore, hin, not_or] at hx
        rw [hrest.outside x hx.2, hset, if_neg hx.1]
    · have hbefore : beforeInvalid size (e :: ends) = [] :=
        List.takeWhile_cons_of_neg (by simpa using hvalid)
      constructor
      · exact iff_of_false Bool.false_ne_true fun hall => hvalid (hall e List.mem_cons_self)
      · exact h
      · rw [hbefore]
        rintro x ⟨e', he', -⟩
        cases he'
      · exact fun x _ => rfl

theorem beforeInvalid_of_forall {ends : List (ℕ × ℕ)} (h : ∀ e ∈ ends, InMap size e) : beforeInvalid size ends = ends :=
  List.takeWhile_eq_self_iff.mpr fun e he => decide_eq_true (h e he)

/-- The bytes in ranges before the first invalid one of a list have the state already. -/
def AlreadySet (size : ℕ) (uState : BitVec 16) (ends : List (ℕ × ℕ)) (map : CRangeMap (BitVec 16)) : Prop :=
  ∀ e ∈ beforeInvalid size ends, ∀ x, e.1 ≤ x → x < e.2 → stateAt shareMapOps map x = uState

/-- A list leaves all bytes as they were if and only if those before its first invalid range have
the state already. -/
theorem setListed_unchanged_iff (h : Canonical shareMapOps size map) (hsize : size < 2 ^ 64) (ends : List (ℕ × ℕ)) :
    (∀ x, stateAt shareMapOps (setListed uState ends map).2 x = stateAt shareMapOps map x) ↔
      AlreadySet size uState ends map := by
  have hspec := applied_setListed h hsize uState ends
  constructor
  · intro hsame e he x hx hx'
    rw [← hsame x]
    exact hspec.inside x ⟨e, he, hx, hx'⟩
  · intro hset x
    by_cases hin : ∃ e ∈ beforeInvalid size ends, e.1 ≤ x ∧ x < e.2
    · obtain ⟨e, he, hx, hx'⟩ := hin
      rw [hspec.inside x ⟨e, he, hx, hx'⟩, hset e he x hx hx']
    · exact hspec.outside x hin

/-- The list that a map makes, set in an empty map of its size, gives the state to the bytes with a
tested one and to no other. -/
theorem setRanges_getRanges (h : Canonical shareMapOps size map) (hsize : size + 1 < 2 ^ 64)
    {toULongLong : List Char → ℕ} (hread : ReadsNumbers toULongLong) (uTest uState : BitVec 16) :
    (setRanges toULongLong (getRanges map uTest) uState (CRangeMap.create shareMapOps size)).1 = true ∧
      ∀ x < size, stateAt shareMapOps (setRanges toULongLong (getRanges map uTest) uState
        (CRangeMap.create shareMapOps size)).2 x = if stateAt shareMapOps map x &&& uTest ≠ 0 then uState else 0 := by
  obtain ⟨ends, htext, hin, hbytes⟩ := exists_getRanges h hsize uTest
  obtain ⟨listedEnds, hlisted, hall, hcover⟩ : ∃ es, listed toULongLong (listText ends) = es ∧
      (∀ e ∈ es, InMap size e) ∧
      ∀ x, (∃ e ∈ es, e.1 ≤ x ∧ x < e.2) ↔ ∃ e ∈ ends, e.1 ≤ x ∧ x < e.2 := by
    cases ends with
    | nil =>
      refine ⟨_, listed_nil hread, ?_, fun x => ?_⟩
      · exact List.forall_mem_singleton.mpr ⟨le_refl 0, Nat.zero_le size⟩
      · simp
    | cons first rest =>
      have hfit : ∀ e ∈ first :: rest, e.1 < 2 ^ 64 ∧ e.2 < 2 ^ 64 := by
        intro e he
        obtain ⟨hle, hend⟩ := hin e he
        omega
      exact ⟨_, listed_listText hread hfit, hin, fun x => Iff.rfl⟩
  have hpos : 0 < size := by
    obtain ⟨final, hfinal, hsz⟩ := h.exists_last
    exact hsz ▸ h.positive final hfinal
  have hspec := applied_setListed (canonical_create shareMapOps hpos) (by omega) uState listedEnds
  rw [setRanges, htext, hlisted]
  refine ⟨hspec.result.mpr hall, fun x hx => ?_⟩
  have hinside := hspec.inside x
  have houtside := hspec.outside x
  rw [beforeInvalid_of_forall hall, hcover] at hinside houtside
  split_ifs with htest
  · exact hinside ((hbytes x hx).mp htest)
  · rw [houtside fun hc => htest ((hbytes x hx).mpr hc), stateAt_create]
    rfl

/-- A map reads back the list it made. A list with an invalid range is refused, and leaves the map as
it was if and only if the bytes before that range have the state already. -/
theorem setRanges_iff (h : Reachable shareMapOps size map) (hsize : size + 1 < 2 ^ 64)
    {toULongLong : List Char → ℕ} (hread : ReadsNumbers toULongLong) :
    (∀ uTest uState, (setRanges toULongLong (getRanges map uTest) uState (CRangeMap.create shareMapOps size)).1 = true ∧
      ∀ x < size, stateAt shareMapOps (setRanges toULongLong (getRanges map uTest) uState
        (CRangeMap.create shareMapOps size)).2 x = if stateAt shareMapOps map x &&& uTest ≠ 0 then uState else 0) ∧
    ∀ Ranges uState, (∃ e ∈ listed toULongLong Ranges, ¬ InMap size e) →
      (setRanges toULongLong Ranges uState map).1 = false ∧
      ((∀ x, stateAt shareMapOps (setRanges toULongLong Ranges uState map).2 x = stateAt shareMapOps map x) ↔
        AlreadySet size uState (listed toULongLong Ranges) map) := by
  have hc := h.canonical.1
  refine ⟨setRanges_getRanges hc hsize hread, fun Ranges uState hinvalid => ⟨?_, ?_⟩⟩
  · have hspec := applied_setListed hc (by omega) uState (listed toULongLong Ranges)
    obtain ⟨e, he, hne⟩ := hinvalid
    exact Bool.eq_false_of_not_eq_true fun htrue => hne (hspec.result.mp htrue e he)
  · exact setListed_unchanged_iff hc (by omega) _

end Set

section Ten

/-- The number of decimal digits alone, and zero of anything else. -/
def digitsNumber (cs : List Char) : ℕ := (digitsValue cs).getD 0

theorem readsNumbers_digitsNumber : ReadsNumbers digitsNumber where
  digits := fun n _ => by rw [digitsNumber, digitsValue_toDigits, Option.getD_some]
  empty := rfl

/-- A map of ten bytes, three of which have a state. -/
def threeOfTen : CRangeMap (BitVec 16) :=
  (CRangeMap.create shareMapOps 10).setRange shareMapOps 2 5 1 .eSet

theorem reachable_threeOfTen : Reachable shareMapOps 10 threeOfTen :=
  Reachable.setRange ⟨2, 5, 1, .eSet⟩ (Reachable.create (by decide) (by decide)) ⟨by decide, by decide⟩

/-- The list of a map of ten bytes, and a list whose second range is invalid. -/
theorem setRanges_iff_ten :
    (setRanges digitsNumber (getRanges threeOfTen 1) 1 (CRangeMap.create shareMapOps 10)).1 = true ∧
      (setRanges digitsNumber "2-4, 9-3".toList 1 threeOfTen).1 = false := by
  have hspec := setRanges_iff reachable_threeOfTen (by decide) readsNumbers_digitsNumber
  exact ⟨(hspec.1 1 1).1, (hspec.2 _ 1 ⟨(9, 3), by decide, by decide⟩).1⟩

/-- The second range of the list is invalid, and the first one has been set. -/
theorem setRanges_invalid_second :
    (setRanges digitsNumber "0-5, 9-3".toList 1 (CRangeMap.create shareMapOps 10)).1 = false ∧
      stateAt shareMapOps (CRangeMap.create shareMapOps 10) 0 = 0 ∧
      stateAt shareMapOps (setRanges digitsNumber "0-5, 9-3".toList 1 (CRangeMap.create shareMapOps 10)).2 0 = 1 := by
  decide

end Ten

end Map

end NeoLoader.RangeTexts
