import NeoLoader.RangeMapIteration

/-!
# Loops that change the map they walk

A loop over the ranges of a map may set ranges of the same map, and may cut
the current range short. The next step then finds its way by a fresh search,
since the stored position is outdated. The rule for such loops carries an
invariant that may depend on the offset up to which the map was walked.
-/

namespace NeoLoader.RangeMap

open StepFunction Tiling

section Later

variable {V : Type*} {ops : StateOps V}

/-- A map after some changes: the revision tells if there were any. -/
def Later (map map' : CRangeMap V) : Prop :=
  map.revision ≤ map'.revision ∧ (map'.revision = map.revision → map'.partMap = map.partMap)

theorem later_refl (map : CRangeMap V) : Later map map := ⟨le_rfl, fun _ => rfl⟩

theorem Later.trans {map map' map'' : CRangeMap V} (h : Later map map') (h' : Later map' map'') : Later map map'' := by
  obtain ⟨hle, hsame⟩ := h
  obtain ⟨hle', hsame'⟩ := h'
  refine ⟨hle.trans hle', fun heq => ?_⟩
  rw [hsame' (by omega), hsame (by omega)]

theorem later_setRange (map : CRangeMap V) (uBegin uEnd : ℕ) (uState : V) (eMode : ESet) :
    Later map (map.setRange ops uBegin uEnd uState eMode) := by
  unfold Later
  rw [revision_setRange]
  exact ⟨Nat.le_succ _, fun heq => by omega⟩

/-- A hint that fits a map fits every later one: it is outdated or the map is
the same. -/
theorem HintOk.later {map map' : CRangeMap V} {pHint : Option SIterHint} (hh : HintOk map pHint)
    (h : Later map map') : HintOk map' pHint := by
  obtain ⟨hle, hsame⟩ := h
  intro hint he
  obtain ⟨hrev, hiter⟩ := hh hint he
  refine ⟨hrev.trans hle, fun heq => ?_⟩
  rw [hsame (by omega)]
  exact hiter (by omega)

end Later

section Loop

variable {V S : Type*} (ops : StateOps V)

/-- `while(more && map->IterateRanges(Iter, uMask)) { body }`, where the body may
change the state and the iterator. Without fuel there is no result. -/
def whileRanges (map : S → CRangeMap V) (uMask : V) (more : S → Bool)
    (body : S → SIterator V → Option (S × SIterator V)) : ℕ → S → SIterator V → Option S
  | 0, _, _ => none
  | fuel + 1, s, it =>
    if more s = false then some s
    else
      match (map s).iterateRanges ops it uMask with
      | (false, _) => some s
      | (true, it) =>
        match body s it with
        | none => none
        | some (s, it) => whileRanges map uMask more body fuel s it

/-- A loop over the ranges of a map in a window. -/
def forRanges (map : S → CRangeMap V) (uMask : V) (more : S → Bool)
    (body : S → SIterator V → Option (S × SIterator V)) (uBegin uEnd : ℕ) (s : S) : Option S :=
  whileRanges ops map uMask more body ((map s).getSize + 1) s (CRangeMap.iterator ops uBegin uEnd true)

variable {ops}

/-- What the body of a loop may rely on: the current range lies in the window and
in the map, and its bytes have its masked state. -/
structure AtRange (ops : StateOps V) (size : ℕ) (map : CRangeMap V) (uMask : V)
    (uFrom uTo : ℕ) (it : SIterator V) : Prop where
  /-- The range is not empty. -/
  lt : it.uBegin < it.uEnd
  /-- The range ends in the map. -/
  uEnd_le : it.uEnd ≤ size
  /-- The range starts in the window. -/
  uFrom_le : uFrom ≤ it.uBegin
  /-- The range ends in the window. -/
  le_uTo : it.uEnd ≤ uTo
  /-- The bytes of the range have its state. -/
  same : ∀ x, it.uBegin ≤ x → x < it.uEnd → CRangeMap.masked ops uMask (stateAt ops map x) = it.uState

/-- The current range goes on as far as its bytes have the same masked state. -/
structure AtWholeRange (ops : StateOps V) (size : ℕ) (map : CRangeMap V) (uMask : V)
    (uFrom uTo : ℕ) (it : SIterator V) : Prop extends AtRange ops size map uMask uFrom uTo it where
  /-- The byte after the range has another masked state. -/
  stop : it.uEnd < min uTo size → CRangeMap.masked ops uMask (stateAt ops map it.uEnd) ≠ it.uState

section Body

variable (ops) (size : ℕ) (map : S → CRangeMap V) (uMask : V) (more : S → Bool)
  (body : S → SIterator V → Option (S × SIterator V)) (uFrom uTo : ℕ) (Inv : ℕ → S → Prop)

/-- What the body of a loop has to do at a range that goes on as far as it can. -/
def BodyOkWhole : Prop :=
  ∀ s it, Inv it.uBegin s → more s = true → AtWholeRange ops size (map s) uMask uFrom uTo it →
    ∃ s' uEnd, body s it = some (s', { it with uEnd := uEnd }) ∧ it.uBegin < uEnd ∧
      uEnd ≤ it.uEnd ∧ Later (map s) (map s') ∧ Inv uEnd s'

/-- What the body of a loop has to do at a range: it gives a result, does not go
back, and takes the invariant from the start of the range to where it stops. -/
def BodyOk : Prop :=
  ∀ s it, Inv it.uBegin s → more s = true → AtRange ops size (map s) uMask uFrom uTo it →
    ∃ s' uEnd, body s it = some (s', { it with uEnd := uEnd }) ∧ it.uBegin < uEnd ∧
      uEnd ≤ it.uEnd ∧ Later (map s) (map s') ∧ Inv uEnd s'

/-- What the body of a loop has to do that may move the iterator to another range, which ends behind the start of the
current one. -/
def BodyOkMoved : Prop :=
  ∀ s it, Inv it.uBegin s → more s = true → AtWholeRange ops size (map s) uMask uFrom uTo it →
    ∃ s' uBegin uEnd, body s it = some (s', { it with uBegin := uBegin, uEnd := uEnd }) ∧ uBegin ≤ uEnd ∧
      it.uBegin < uEnd ∧ uEnd ≤ uTo ∧ Later (map s) (map s') ∧ Inv uEnd s'

end Body

variable {size : ℕ} {map : S → CRangeMap V} {uMask : V} {more : S → Bool}
  {body : S → SIterator V → Option (S × SIterator V)} {uFrom uTo : ℕ} {Inv : ℕ → S → Prop}

theorem BodyOkWhole.moved (hbody : BodyOkWhole ops size map uMask more body uFrom uTo Inv) :
    BodyOkMoved ops size map uMask more body uFrom uTo Inv := by
  intro s it hinv hmore hat
  obtain ⟨s', uEnd, hrun, hgo, hstop, hlater, hnext⟩ := hbody s it hinv hmore hat
  exact ⟨s', it.uBegin, uEnd, hrun, hgo.le, hgo, hstop.trans hat.le_uTo, hlater, hnext⟩

theorem BodyOk.whole (hbody : BodyOk ops size map uMask more body uFrom uTo Inv) :
    BodyOkWhole ops size map uMask more body uFrom uTo Inv :=
  fun s it hinv hmore hat => hbody s it hinv hmore hat.toAtRange

theorem BodyOk.and (hbody : BodyOk ops size map uMask more body uFrom uTo Inv) (Inv' : ℕ → S → Prop)
    (hstep : ∀ s it s' it', Inv it.uBegin s → Inv' it.uBegin s →
      AtRange ops size (map s) uMask uFrom uTo it → body s it = some (s', it') → Inv' it'.uEnd s') :
    BodyOk ops size map uMask more body uFrom uTo fun cur s => Inv cur s ∧ Inv' cur s := by
  intro s it hinv hmore hat
  obtain ⟨s', uEnd, hrun, hgo, hstop, hlater, hnext⟩ := hbody s it hinv.1 hmore hat
  exact ⟨s', uEnd, hrun, hgo, hstop, hlater, hnext, hstep s it s' _ hinv.1 hinv.2 hat hrun⟩

/-- The rule for loops: from an offset on, the loop ends and the invariant holds
at an offset from which nothing is left, unless the loop was left early. -/
theorem whileRanges_moved (hsize : size < 2 ^ 64) (hcanonical : ∀ cur s, Inv cur s → Canonical ops size (map s))
    (hbody : BodyOkMoved ops size map uMask more body uFrom uTo Inv) {fuel : ℕ} {s : S}
    {it : SIterator V} (hr : Ready it) (hfrom : it.uFrom = uFrom) (hto : it.uTo = uTo)
    (hh : HintOk (map s) it.pHint) (hfuel : size - max it.uEnd it.uFrom < fuel) (hinv : Inv (max it.uEnd it.uFrom) s) :
    ∃ s' cur, whileRanges ops map uMask more body fuel s it = some s' ∧ Inv cur s' ∧
      (more s' = true → min uTo size ≤ cur) := by
  induction fuel generalizing s it with
  | zero => omega
  | succ fuel ih =>
    have hlt := hr.lt
    have hle := hr.uEnd_le
    have hto' := hr.uTo_lt
    have hcan := hcanonical _ s hinv
    rw [whileRanges]
    by_cases hmore : more s = false
    · rw [if_pos hmore]
      exact ⟨s, _, rfl, hinv, fun h => by rw [hmore] at h; cases h⟩
    · rw [if_neg hmore]
      by_cases hopen : it.uEnd = it.uTo
      · rw [iterateRanges_done hopen]
        exact ⟨s, _, rfl, hinv, fun _ => by omega⟩
      · rcases Nat.lt_or_ge (max it.uEnd it.uFrom) size with hin | hpast
        · obtain ⟨next, hf, hhint, he⟩ := iterateRanges_found hcan hsize hr hh hopen hin uMask
          have hb := hf.uBegin_le
          have hend := hf.lt_uEnd
          have hend' := hf.uEnd_le
          have hat : AtWholeRange ops size (map s) uMask uFrom uTo ⟨it.uFrom, it.uTo,
              max it.uEnd it.uFrom, min next.uEnd it.uTo, next.uState, next.pHint⟩ := by
            refine ⟨⟨?_, ?_, ?_, ?_, fun x h1 h2 => ?_⟩, fun hstop => ?_⟩
            · dsimp only
              omega
            · dsimp only
              omega
            · dsimp only
              omega
            · dsimp only
              omega
            · dsimp only at h1 h2
              have hseen := hf.same x (by omega) (by omega)
              rw [seen, hcan.valueAt_eq_stateAt (by omega), Option.map_some, Option.some.injEq] at hseen
              exact hseen
            · dsimp only at hstop ⊢
              have hnext : min next.uEnd it.uTo = next.uEnd := by omega
              have hseen := hf.stop (by omega)
              rw [seen, hcan.valueAt_eq_stateAt (by omega), Option.map_some, ne_eq, Option.some.injEq] at hseen
              rw [hnext]
              exact hseen
          obtain ⟨s', uBegin, uEnd, hs', hbegin, hgo, hstop, hlater, hinv'⟩ :=
            hbody s _ hinv (eq_true_of_ne_false hmore) hat
          dsimp only at hgo hs'
          rw [he]
          dsimp only
          rw [hs']
          have hcur : max uEnd it.uFrom = uEnd := by omega
          have hready : Ready (⟨it.uFrom, it.uTo, uBegin, uEnd, next.uState, next.pHint⟩ : SIterator V) := by
            refine ⟨hlt, hto', by dsimp only; omega, ?_⟩
            dsimp only
            split <;> omega
          refine ih hready hfrom hto (hhint.later hlater) (by dsimp only; omega) ?_
          dsimp only
          rw [hcur]
          exact hinv'
        · rw [iterateRanges_past hcan hsize hr hh hopen hpast]
          exact ⟨s, _, rfl, hinv, fun _ => by omega⟩

section Window

variable (hsize : size < 2 ^ 64) (hlt : uFrom < uTo) (hto : uTo < 2 ^ 64)
  (hcanonical : ∀ cur s, Inv cur s → Canonical ops size (map s))

include hsize hlt hto hcanonical

/-- The rule for loops over a window. -/
theorem forRanges_moved (hbody : BodyOkMoved ops size map uMask more body uFrom uTo Inv) {s : S} (hinv : Inv uFrom s) :
    ∃ s' cur, forRanges ops map uMask more body uFrom uTo s = some s' ∧ Inv cur s' ∧
      (more s' = true → min uTo size ≤ cur) := by
  have hcan := hcanonical _ s hinv
  have hcur : max (CRangeMap.iterator ops uFrom uTo true).uEnd
      (CRangeMap.iterator ops uFrom uTo true).uFrom = uFrom := Nat.zero_max uFrom
  unfold forRanges
  rw [hcan.getSize]
  refine whileRanges_moved hsize hcanonical hbody (ready_iterator ops hlt hto true) rfl rfl
    (hintOk_iterator hcan uFrom uTo true) (by omega) ?_
  rw [hcur]
  exact hinv

theorem forRanges_whole (hbody : BodyOkWhole ops size map uMask more body uFrom uTo Inv) {s : S} (hinv : Inv uFrom s) :
    ∃ s' cur, forRanges ops map uMask more body uFrom uTo s = some s' ∧ Inv cur s' ∧
      (more s' = true → min uTo size ≤ cur) :=
  forRanges_moved hsize hlt hto hcanonical hbody.moved hinv

theorem forRanges_spec (hbody : BodyOk ops size map uMask more body uFrom uTo Inv) {s : S} (hinv : Inv uFrom s) :
    ∃ s' cur, forRanges ops map uMask more body uFrom uTo s = some s' ∧ Inv cur s' ∧
      (more s' = true → min uTo size ≤ cur) :=
  forRanges_whole hsize hlt hto hcanonical hbody.whole hinv

end Window

/-- A window past the end of the map has no ranges, even if it is reversed. -/
theorem forRanges_past (hsize : size < 2 ^ 64) (hpast : size ≤ uFrom) (hfrom : uFrom + 1 < 2 ^ 64) {s : S}
    (hcan : Canonical ops size (map s)) : forRanges ops map uMask more body uFrom uTo s = some s := by
  have hresume : (if (CRangeMap.iterator ops uFrom uTo true).uBegin > (CRangeMap.iterator ops uFrom uTo true).uEnd then
        (CRangeMap.iterator ops uFrom uTo true).uBegin
      else (CRangeMap.iterator ops uFrom uTo true).uEnd) = uFrom := by
    simp only [CRangeMap.iterator]
    split_ifs <;> omega
  have hnext := getNextRange_not_found hcan hsize hresume hfrom hpast
    (CRangeMap.iterator ops uFrom uTo true).uState uMask (hintOk_iterator hcan uFrom uTo true)
  have hdone : ((map s).iterateRanges ops (CRangeMap.iterator ops uFrom uTo true) uMask).1 =
      false := by
    unfold CRangeMap.iterateRanges
    split_ifs
    · rfl
    · simp [clip, hnext]
  unfold forRanges
  rw [whileRanges]
  split_ifs
  · rfl
  · split
    · rfl
    · rename_i hfound
      rw [hfound] at hdone
      cases hdone

end Loop

end NeoLoader.RangeMap
