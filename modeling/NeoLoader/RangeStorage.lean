import NeoLoader.RangeTexts

/-!
# Range maps on disk

A range map is stored as the list of its entries, and loaded by putting the entries of a list into a fresh
map. Its own list gives the same map. Of another list only the last key is checked, so that it can leave
an entry at zero, or neighbours with the same state.
-/

namespace NeoLoader.RangeStorage

open StepFunction RangeMap PartStates TextEncodings RangeTexts

section Code

variable {V : Type*}

/-- What a map is stored as. -/
structure QVariantMap where
  /-- The size of the map. -/
  Size : ℕ
  /-- The entries of the map. -/
  Ranges : List Char

/-- `QString("%1:%2")` with an entry, whose state is written as a number. -/
def entryText (text : V → ℕ) (part : ℕ × V) : List Char :=
  Nat.toDigits 10 part.1 ++ ':' :: Nat.toDigits 10 (text part.2)

/-- `Store` of a map whose states are written as numbers. -/
def storeWith (text : V → ℕ) (map : CRangeMap V) : QVariantMap where
  Size := map.getSize
  Ranges := ['|'].intercalate (map.partMap.map (entryText text))

/-- Entries are put into a map one after the other. -/
def insertAll (partMap entries : List (ℕ × V)) : List (ℕ × V) :=
  entries.foldl (fun partMap e => qmapInsert partMap e.1 e.2) partMap

variable (value : ℕ → V) (toULongLong toUInt : List Char → ℕ)

/-- The key and the state that an entry of a list gives. -/
def keyVal (Part : List Char) : ℕ × V :=
  (toULongLong (split2 Part ':').1, value (toUInt (split2 Part ':').2))

/-- The keys and the states of all entries of a list. -/
def entries (Ranges : List Char) : List (ℕ × V) :=
  (Ranges.splitOn '|').map (keyVal value toULongLong toUInt)

/-- `Load` of a map whose states are made of numbers. -/
def loadWith (Map : QVariantMap) (map : CRangeMap V) : Bool × CRangeMap V :=
  let Size := map.getSize
  let loaded : CRangeMap V :=
    ⟨insertAll map.partMap (entries value toULongLong toUInt Map.Ranges), map.revision⟩
  if loaded.partMap.isEmpty || Size != loaded.getSize then (false, ⟨[(Size, value 0)], map.revision⟩)
  else (true, loaded)

def CShareMap.store (map : CRangeMap (BitVec 16)) : QVariantMap := storeWith BitVec.toNat map

def CShareMap.load (Map : QVariantMap) (map : CRangeMap (BitVec 16)) : Bool × CRangeMap (BitVec 16) :=
  loadWith (BitVec.ofNat 16) toULongLong toUInt Map map

def CPartMap.store (map : CRangeMap SPartRange) : QVariantMap :=
  storeWith (fun state => state.uStates.toNat) map

def CPartMap.load (Map : QVariantMap) (map : CRangeMap SPartRange) : Bool × CRangeMap SPartRange :=
  loadWith (fun n => SPartRange.ofStates (BitVec.ofNat 32 n)) toULongLong toUInt Map map

end Code

section Entries

variable {V : Type*}

/-- An entry of a list with no later one for its key. -/
def LastOf (entries : List (ℕ × V)) (part : ℕ × V) : Prop :=
  ∃ before behind, entries = before ++ part :: behind ∧ ∀ e ∈ behind, e.1 ≠ part.1

variable {partMap : List (ℕ × V)}

/-- What is in a map after an insertion. -/
theorem mem_qmapInsert (h : Increasing partMap) (key : ℕ) (value : V) (part : ℕ × V) :
    part ∈ qmapInsert partMap key value ↔ part = (key, value) ∨ part ∈ partMap ∧ part.1 ≠ key := by
  induction partMap with
  | nil => simp [qmapInsert]
  | cons first rest ih =>
    have hfirst := List.pairwise_cons.mp h
    by_cases hlt : first.1 < key
    · have hne : first.1 ≠ key := hlt.ne
      simp only [qmapInsert, hlt, if_true, List.mem_cons, ih hfirst.2]
      constructor
      · rintro (rfl | rfl | ⟨hm, hk⟩)
        · exact Or.inr ⟨Or.inl rfl, hne⟩
        · exact Or.inl rfl
        · exact Or.inr ⟨Or.inr hm, hk⟩
      · rintro (rfl | ⟨rfl | hm, hk⟩)
        · exact Or.inr (Or.inl rfl)
        · exact Or.inl rfl
        · exact Or.inr (Or.inr ⟨hm, hk⟩)
    · have hrest : ∀ e ∈ rest, e.1 ≠ key := fun e he => by
        have hless := hfirst.1 e he
        omega
      have hout : part ∈ rest → part.1 ≠ key := hrest part
      by_cases heq : first.1 = key
      · rw [qmapInsert, if_neg hlt, if_pos heq, List.mem_cons, List.mem_cons]
        constructor
        · exact Or.imp_right fun hm => ⟨Or.inr hm, hout hm⟩
        · rintro (rfl | ⟨rfl | hm, hk⟩)
          · exact Or.inl rfl
          · exact absurd heq hk
          · exact Or.inr hm
      · rw [qmapInsert, if_neg hlt, if_neg heq, List.mem_cons, List.mem_cons]
        constructor
        · rintro (rfl | rfl | hm)
          · exact Or.inl rfl
          · exact Or.inr ⟨Or.inl rfl, heq⟩
          · exact Or.inr ⟨Or.inr hm, hout hm⟩
        · rintro (rfl | ⟨hm, -⟩)
          · exact Or.inl rfl
          · exact Or.inr hm

theorem increasing_qmapInsert (h : Increasing partMap) (key : ℕ) (value : V) :
    Increasing (qmapInsert partMap key value) := by
  induction partMap with
  | nil => simp [Increasing, qmapInsert]
  | cons first rest ih =>
    have hfirst := List.pairwise_cons.mp h
    by_cases hlt : first.1 < key
    · simp only [qmapInsert, hlt, if_true]
      refine List.pairwise_cons.mpr ⟨fun e he => ?_, ih hfirst.2⟩
      rcases (mem_qmapInsert hfirst.2 key value e).mp he with rfl | ⟨hm, -⟩
      · exact hlt
      · exact hfirst.1 e hm
    · by_cases heq : first.1 = key
      · rw [qmapInsert, if_neg hlt, if_pos heq]
        refine List.pairwise_cons.mpr ⟨fun e he => ?_, hfirst.2⟩
        exact lt_of_eq_of_lt heq.symm (hfirst.1 e he)
      · rw [qmapInsert, if_neg hlt, if_neg heq]
        refine List.pairwise_cons.mpr ⟨fun e he => ?_, h⟩
        have hless : key < first.1 := by omega
        rcases List.mem_cons.mp he with rfl | hm
        · exact hless
        · exact hless.trans (hfirst.1 e hm)

/-- The last entry of a list, or the last one of its key before. -/
theorem lastOf_append (entries : List (ℕ × V)) (e part : ℕ × V) :
    LastOf (entries ++ [e]) part ↔ part = e ∨ LastOf entries part ∧ part.1 ≠ e.1 := by
  constructor
  · rintro ⟨before, behind, heq, hlater⟩
    rcases List.eq_nil_or_concat behind with rfl | ⟨behind, e', rfl⟩
    · exact Or.inl (List.append_inj' heq rfl).2.symm |>.imp_left fun h => by simpa using h
    · have hparts : entries ++ [e] = (before ++ part :: behind) ++ [e'] := by simpa using heq
      obtain ⟨hentries, hlast⟩ := List.append_inj' hparts rfl
      have he : e = e' := by simpa using hlast
      refine Or.inr ⟨⟨before, behind, hentries, fun q hq => hlater q (by simp [hq])⟩, ?_⟩
      rw [he]
      exact (hlater e' (by simp)).symm
  · rintro (rfl | ⟨⟨before, behind, rfl, hlater⟩, hne⟩)
    · exact ⟨entries, [], rfl, by simp⟩
    · refine ⟨before, behind ++ [e], by simp, fun q hq => ?_⟩
      rcases List.mem_append.mp hq with hq | hq
      · exact hlater q hq
      · simpa [List.mem_singleton.mp hq] using hne.symm

/-- Entries that are put into an empty map leave the last one of each key, in the order of the keys. -/
theorem insertAll_nil (entries : List (ℕ × V)) : Increasing (insertAll [] entries) ∧
      ∀ part, part ∈ insertAll [] entries ↔ LastOf entries part := by
  induction entries using List.reverseRecOn with
  | nil => simp [insertAll, Increasing, LastOf]
  | append_singleton entries e ih =>
    have hfold : insertAll [] (entries ++ [e]) = qmapInsert (insertAll [] entries) e.1 e.2 := by
      simp [insertAll]
    rw [hfold]
    refine ⟨increasing_qmapInsert ih.1 e.1 e.2, fun part => ?_⟩
    rw [mem_qmapInsert ih.1, ih.2, lastOf_append]

theorem eq_of_increasing {partMap partMap' : List (ℕ × V)} (h : Increasing partMap)
    (h' : Increasing partMap') (hmem : ∀ part, part ∈ partMap ↔ part ∈ partMap') : partMap = partMap' := by
  have hnodup : ∀ {l : List (ℕ × V)}, Increasing l → l.Nodup := fun hl =>
    hl.imp fun hlt heq => by simp [heq] at hlt
  have hperm := (List.perm_ext_iff_of_nodup (hnodup h) (hnodup h')).mpr hmem
  refine hperm.eq_of_pairwise (fun a b _ _ hab hba => ?_) h h'
  exact absurd hab hba.asymm

theorem lastOf_of_increasing (h : Increasing partMap) {part : ℕ × V} : LastOf partMap part ↔ part ∈ partMap := by
  constructor
  · rintro ⟨before, behind, rfl, -⟩
    simp
  · intro hm
    obtain ⟨before, behind, rfl⟩ := List.mem_iff_append.mp hm
    refine ⟨before, behind, rfl, fun e he => ?_⟩
    exact ((List.pairwise_cons.mp (List.pairwise_append.mp h).2.1).1 e he).ne'

/-- Neighbours in a map are entries with no key between them. -/
theorem isChain_iff (h : Increasing partMap) (r : ℕ × V → ℕ × V → Prop) :
    partMap.IsChain r ↔ ∀ a ∈ partMap, ∀ b ∈ partMap, a.1 < b.1 → (∀ e ∈ partMap, e.1 ≤ a.1 ∨ b.1 ≤ e.1) → r a b := by
  induction partMap with
  | nil => simp
  | cons first rest ih =>
    have hfirst := List.pairwise_cons.mp h
    rw [List.isChain_cons, ih hfirst.2]
    constructor
    · rintro ⟨hhead, hrest⟩ a ha b hb hlt hbetween
      rcases List.mem_cons.mp ha with rfl | ha'
      · rcases List.mem_cons.mp hb with rfl | hb'
        · exact absurd hlt (lt_irrefl _)
        · cases rest with
          | nil => simp at hb'
          | cons second rest =>
            rcases List.mem_cons.mp hb' with rfl | hlater
            · exact hhead b rfl
            · -- The second entry would lie between the two.
              have hsecond := (List.pairwise_cons.mp hfirst.2).1 b hlater
              have hless := hfirst.1 second List.mem_cons_self
              have hnone := hbetween second (by simp)
              omega
      · rcases List.mem_cons.mp hb with rfl | hb'
        · exact absurd hlt (hfirst.1 a ha').asymm
        · exact hrest a ha' b hb' hlt fun e he => hbetween e (List.mem_cons_of_mem _ he)
    · intro hall
      refine ⟨fun second hsecond => ?_, fun a ha b hb hlt hbetween => ?_⟩
      · obtain ⟨rest, rfl⟩ := List.head?_eq_some_iff.mp hsecond
        refine hall first List.mem_cons_self second (by simp) (hfirst.1 second List.mem_cons_self) ?_
        intro e he
        rcases List.mem_cons.mp he with rfl | he
        · exact Or.inl le_rfl
        · rcases List.mem_cons.mp he with rfl | he
          · exact Or.inr le_rfl
          · exact Or.inr ((List.pairwise_cons.mp hfirst.2).1 e he).le
      · refine hall a (List.mem_cons_of_mem _ ha) b (List.mem_cons_of_mem _ hb) hlt fun e he => ?_
        rcases List.mem_cons.mp he with rfl | he
        · exact Or.inl (hfirst.1 a ha).le
        · exact hbetween e he

/-- There is a last entry for the key of each entry. -/
theorem exists_lastOf {entries : List (ℕ × V)} {e : ℕ × V} (h : e ∈ entries) :
    ∃ part, LastOf entries part ∧ part.1 = e.1 := by
  induction entries generalizing e with
  | nil => cases h
  | cons first rest ih =>
    have hlater : ∀ e ∈ rest, ∃ part, LastOf (first :: rest) part ∧ part.1 = e.1 := by
      intro e he
      obtain ⟨part, ⟨before, behind, rfl, hnone⟩, hkey⟩ := ih he
      exact ⟨part, ⟨first :: before, behind, rfl, hnone⟩, hkey⟩
    rcases List.mem_cons.mp h with rfl | h
    · by_cases hkey : ∃ e' ∈ rest, e'.1 = e.1
      · obtain ⟨e', he', hkey⟩ := hkey
        simpa [hkey] using hlater e' he'
      · exact ⟨e, ⟨[], rest, rfl, fun e' he' hkey' => hkey ⟨e', he', hkey'⟩⟩, rfl⟩
    · exact hlater e h

theorem LastOf.mem {entries : List (ℕ × V)} {part : ℕ × V} (h : LastOf entries part) : part ∈ entries := by
  obtain ⟨before, behind, rfl, -⟩ := h
  simp

/-- A map that has an entry for a size ends there if it has no larger keys. -/
theorem getSize_eq_iff {map : CRangeMap V} (h : Increasing map.partMap) {size : ℕ}
    (hsize : ∃ part ∈ map.partMap, part.1 = size) : map.getSize = size ↔ ∀ part ∈ map.partMap, part.1 ≤ size := by
  obtain ⟨final, hfinal, rfl⟩ := hsize
  rcases List.eq_nil_or_concat map.partMap with hnil | ⟨front, last, hparts⟩
  · simp [hnil] at hfinal
  · rw [List.concat_eq_append] at hparts
    have hlast : map.getSize = last.1 := by simp [CRangeMap.getSize, hparts]
    rw [hparts] at h hfinal ⊢
    have hless : ∀ part ∈ front ++ [last], part.1 ≤ last.1 := by
      intro part hpart
      rcases List.mem_append.mp hpart with hpart | hpart
      · exact ((List.pairwise_append.mp h).2.2 part hpart last (List.mem_singleton_self last)).le
      · rw [List.mem_singleton.mp hpart]
    rw [hlast]
    constructor
    · intro heq part hpart
      exact (hless part hpart).trans_eq heq
    · intro hall
      exact (hall last (by simp)).antisymm (hless final hfinal)

end Entries

section Texts

variable {V : Type*}

theorem bar_notMem_entryText (text : V → ℕ) (part : ℕ × V) : '|' ∉ entryText text part := by
  simp only [entryText, List.mem_append, List.mem_cons, not_or]
  exact ⟨notMem_toDigits (Or.inr (by decide)) _, by decide, notMem_toDigits (Or.inr (by decide)) _⟩

theorem entries_storeWith {text : V → ℕ} {value : ℕ → V} {toULongLong toUInt : List Char → ℕ}
    (hread : ReadsNumbers toULongLong) (hreadUInt : ∀ n < 2 ^ 32, toUInt (Nat.toDigits 10 n) = n)
    (htext : ∀ v, text v < 2 ^ 32) {map : CRangeMap V} (hne : map.partMap ≠ [])
    (hkeys : ∀ part ∈ map.partMap, part.1 < 2 ^ 64) : entries value toULongLong toUInt (storeWith text map).Ranges =
      map.partMap.map fun part => (part.1, value (text part.2)) := by
  have hsplit : (storeWith text map).Ranges.splitOn '|' = map.partMap.map (entryText text) := by
    refine List.splitOn_intercalate '|' ?_ (by simpa using hne)
    intro l hl
    obtain ⟨part, -, rfl⟩ := List.mem_map.mp hl
    exact bar_notMem_entryText text part
  rw [entries, hsplit, List.map_map]
  refine List.map_congr_left fun part hpart => ?_
  have hentry := split2_toDigits [] nofun (Or.inr (by decide : 57 < ':'.toNat)) rfl part.1 (text part.2)
  rw [List.nil_append] at hentry
  simp [keyVal, entryText, hentry, hread.digits _ (hkeys part hpart), hreadUInt _ (htext part.2)]

end Texts

section Results

variable {V : Type*} {value : ℕ → V} {toULongLong toUInt : List Char → ℕ}

/-- What a text puts into a fresh map. -/
def final (value : ℕ → V) (toULongLong toUInt : List Char → ℕ) (default : V) (size : ℕ)
    (Map : QVariantMap) : List (ℕ × V) :=
  insertAll [] ((size, default) :: entries value toULongLong toUInt Map.Ranges)

/-- Loading into a fresh map fails if a key is larger than the size. -/
theorem loadWith_create (ops : StateOps V) (size : ℕ) (Map : QVariantMap) :
    loadWith value toULongLong toUInt Map (CRangeMap.create ops size) =
      if ∀ e ∈ entries value toULongLong toUInt Map.Ranges, e.1 ≤ size then
        (true, ⟨final value toULongLong toUInt ops.default size Map, 1⟩)
      else (false, ⟨[(size, value 0)], 1⟩) := by
  obtain ⟨hinc, hmem⟩ :=
    insertAll_nil ((size, ops.default) :: entries value toULongLong toUInt Map.Ranges)
  have hfresh : (CRangeMap.create ops size).getSize = size := by
    simp [CRangeMap.create, CRangeMap.getSize]
  have hstart : insertAll (CRangeMap.create ops size).partMap (entries value toULongLong toUInt Map.Ranges) =
        final value toULongLong toUInt ops.default size Map := by
    simp [CRangeMap.create, final, insertAll, qmapInsert]
  have hkeys : ∀ e ∈ (size, ops.default) :: entries value toULongLong toUInt Map.Ranges,
      ∃ part ∈ final value toULongLong toUInt ops.default size Map, part.1 = e.1 := by
    intro e he
    obtain ⟨part, hlast, hkey⟩ := exists_lastOf he
    exact ⟨part, (hmem part).mpr hlast, hkey⟩
  have hend := hkeys (size, ops.default) List.mem_cons_self
  have hne : (final value toULongLong toUInt ops.default size Map).isEmpty = false := by
    obtain ⟨part, hpart, -⟩ := hend
    exact List.isEmpty_eq_false_iff.mpr (List.ne_nil_of_mem hpart)
  have hlast : (CRangeMap.mk (final value toULongLong toUInt ops.default size Map) 1).getSize = size ↔
      ∀ e ∈ entries value toULongLong toUInt Map.Ranges, e.1 ≤ size := by
    rw [getSize_eq_iff hinc hend]
    constructor
    · intro hall e he
      obtain ⟨part, hpart, hkey⟩ := hkeys e (List.mem_cons_of_mem _ he)
      exact hkey ▸ hall part hpart
    · intro hall part hpart
      rcases List.mem_cons.mp ((hmem part).mp hpart).mem with rfl | he
      · exact le_rfl
      · exact hall part he
  have hrevision : (CRangeMap.create ops size).revision = 1 := rfl
  simp only [loadWith, hstart, hfresh, hne, Bool.false_or, bne_iff_ne, hrevision]
  by_cases hall : ∀ e ∈ entries value toULongLong toUInt Map.Ranges, e.1 ≤ size
  · rw [if_pos hall, if_neg (not_not.mpr (hlast.mpr hall).symm)]
  · rw [if_neg hall, if_pos fun heq => hall (hlast.mp heq.symm)]

/-- The entries of a map are put into a fresh one as they are. -/
theorem loadWith_storeWith {ops : StateOps V} {size : ℕ} {map : CRangeMap V}
    (h : Canonical ops size map) (hsize : size < 2 ^ 64) {text : V → ℕ} (hread : ReadsNumbers toULongLong)
    (hreadUInt : ∀ n < 2 ^ 32, toUInt (Nat.toDigits 10 n) = n) (htext : ∀ v, text v < 2 ^ 32) :
    loadWith value toULongLong toUInt (storeWith text map) (CRangeMap.create ops size) =
      (true, ⟨map.partMap.map fun part => (part.1, value (text part.2)), 1⟩) := by
  obtain ⟨end_, hend, hkey⟩ := h.exists_last
  have hentries : entries value toULongLong toUInt (storeWith text map).Ranges =
      map.partMap.map fun part => (part.1, value (text part.2)) :=
    entries_storeWith hread hreadUInt htext (List.ne_nil_of_mem hend) fun part hpart =>
      (h.le_size hpart).trans_lt hsize
  have hinc : Increasing (map.partMap.map fun part => (part.1, value (text part.2))) :=
    List.pairwise_map.mpr h.increasing
  have hall : ∀ e ∈ entries value toULongLong toUInt (storeWith text map).Ranges, e.1 ≤ size := by
    rw [hentries]
    intro e he
    obtain ⟨part, hpart, rfl⟩ := List.mem_map.mp he
    have hle := h.le_size hpart
    exact hle
  rw [loadWith_create, if_pos hall]
  have hsame : final value toULongLong toUInt ops.default size (storeWith text map) =
      map.partMap.map fun part => (part.1, value (text part.2)) := by
    obtain ⟨hfinal, hmem⟩ :=
      insertAll_nil ((size, ops.default) :: entries value toULongLong toUInt (storeWith text map).Ranges)
    refine eq_of_increasing hfinal hinc fun part => (hmem part).trans ?_
    rw [hentries]
    constructor
    · rintro ⟨before, behind, heq, hnone⟩
      cases before with
      | nil =>
        -- The entry of the size is replaced, since the text has one too.
        obtain ⟨rfl, rfl⟩ := List.cons_eq_cons.mp heq
        exact absurd hkey (hnone (end_.1, value (text end_.2)) (List.mem_map.mpr ⟨end_, hend, rfl⟩))
      | cons first before =>
        have hrest := (List.cons_eq_cons.mp heq).2
        rw [hrest]
        simp
    · intro hpart
      obtain ⟨before, behind, heq, hnone⟩ := (lastOf_of_increasing hinc).mpr hpart
      exact ⟨(size, ops.default) :: before, behind, by rw [heq]; rfl, hnone⟩
  rw [hsame]

theorem valueAt_map {W : Type*} (f : V → W) (partMap : List (ℕ × V)) (x : ℕ) :
    valueAt (partMap.map fun part => (part.1, f part.2)) x = (valueAt partMap x).map f := by
  induction partMap with
  | nil => rfl
  | cons part rest ih => by_cases hx : x < part.1 <;> simp [valueAt, hx, ih]

/-- In every state that a part map can get into it is loaded as it was stored, with the same flags of every byte. -/
theorem CPartMap.load_store {size : ℕ} {map : CRangeMap SPartRange} (h : Reachable partMapOps size map)
    (hread : ReadsNumbers toULongLong) (hreadUInt : ∀ n < 2 ^ 32, toUInt (Nat.toDigits 10 n) = n) :
    (CPartMap.load toULongLong toUInt (CPartMap.store map) (CRangeMap.create partMapOps size)).1 = true ∧
      ∀ x < size, (stateAt partMapOps (CPartMap.load toULongLong toUInt (CPartMap.store map)
        (CRangeMap.create partMapOps size)).2 x).uStates = (stateAt partMapOps map x).uStates := by
  obtain ⟨hc, hsize⟩ := h.canonical
  have hload : CPartMap.load toULongLong toUInt (CPartMap.store map) (CRangeMap.create partMapOps size) =
      (true, ⟨map.partMap.map fun part =>
        (part.1, SPartRange.ofStates (BitVec.ofNat 32 part.2.uStates.toNat)), 1⟩) :=
    loadWith_storeWith hc hsize hread hreadUInt fun state => state.uStates.isLt
  refine ⟨by rw [hload], fun x hx => ?_⟩
  obtain ⟨v, hv, -⟩ := hc.exists_valueAt hx
  have hvalue := valueAt_map (fun v : SPartRange => SPartRange.ofStates (BitVec.ofNat 32 v.uStates.toNat)) map.partMap x
  simp only [hload, stateAt, hvalue, hv]
  simp [SPartRange.ofStates]

/-- The middle of a map of ten bytes has a flag. -/
theorem load_store_ten : (CPartMap.load digitsNumber digitsNumber
      (CPartMap.store ((CRangeMap.create partMapOps 10).setRange partMapOps 2 5 (SPartRange.ofStates 1) .eAdd))
      (CRangeMap.create partMapOps 10)).1 = true :=
  (CPartMap.load_store (Reachable.setRange ⟨2, 5, SPartRange.ofStates 1, .eAdd⟩
    (Reachable.create (by decide) (by decide)) ⟨by decide, by decide⟩) readsNumbers_digitsNumber
    fun n hn => readsNumbers_digitsNumber.digits n (hn.trans (by decide))).1

/-- Loading failed, or gave a canonical map of the size with no key outside of it. -/
def LoadOk (size : ℕ) (r : Bool × CRangeMap (BitVec 16)) : Prop :=
  r.1 = false ∨ Canonical shareMapOps size r.2 ∧ (∀ part ∈ r.2.partMap, 0 < part.1 ∧ part.1 ≤ size) ∧ r.2.getSize = size

/-- The entries of a text have no key zero, and the states of neighbouring keys are different. -/
structure Proper (size : ℕ) (entries : List (ℕ × BitVec 16)) : Prop where
  /-- No key is zero. -/
  positive : ∀ e ∈ entries, 0 < e.1
  /-- With the last entry of each key, and that of a fresh map, neighbours are different. -/
  distinct : ∀ a b, LastOf ((size, 0) :: entries) a → LastOf ((size, 0) :: entries) b → a.1 < b.1 →
    (∀ e ∈ entries, e.1 ≤ a.1 ∨ b.1 ≤ e.1) → a.2 ≠ b.2

/-- A text without large keys gives a canonical map if and only if its entries are proper. -/
theorem canonical_final_iff {size : ℕ} (hsize : 0 < size) {Map : QVariantMap}
    (hall : ∀ e ∈ entries (BitVec.ofNat 16) toULongLong toUInt Map.Ranges, e.1 ≤ size) :
    Canonical shareMapOps size ⟨final (BitVec.ofNat 16) toULongLong toUInt 0 size Map, 1⟩ ↔
      Proper size (entries (BitVec.ofNat 16) toULongLong toUInt Map.Ranges) := by
  generalize hentries : entries (BitVec.ofNat 16) toULongLong toUInt Map.Ranges = es at hall ⊢
  have hfinal : final (BitVec.ofNat 16) toULongLong toUInt 0 size Map = insertAll [] ((size, 0) :: es) := by
    rw [final, hentries]
  obtain ⟨hinc, hmem⟩ := insertAll_nil ((size, 0) :: es)
  rw [hfinal]
  have hkeys : ∀ e ∈ (size, 0) :: es, ∃ part ∈ insertAll [] ((size, 0) :: es), part.1 = e.1 := by
    intro e he
    obtain ⟨part, hlast, hkey⟩ := exists_lastOf he
    exact ⟨part, (hmem part).mpr hlast, hkey⟩
  have hle : ∀ part ∈ insertAll [] ((size, 0) :: es), part.1 ≤ size := by
    intro part hpart
    rcases List.mem_cons.mp ((hmem part).mp hpart).mem with rfl | he
    · exact le_rfl
    · exact hall part he
  -- The keys between two in the map are those of the entries between them.
  have hbetween : ∀ a b : ℕ × BitVec 16, b.1 ≤ size → ((∀ e ∈ insertAll [] ((size, 0) :: es), e.1 ≤ a.1 ∨ b.1 ≤ e.1) ↔
        ∀ e ∈ es, e.1 ≤ a.1 ∨ b.1 ≤ e.1) := by
    intro a b hb
    constructor
    · intro hnone e he
      obtain ⟨part, hpart, hkey⟩ := hkeys e (List.mem_cons_of_mem _ he)
      exact hkey ▸ hnone part hpart
    · intro hnone part hpart
      rcases List.mem_cons.mp ((hmem part).mp hpart).mem with rfl | he
      · exact Or.inr hb
      · exact hnone part he
  constructor
  · intro hcanonical
    refine ⟨fun e he => ?_, fun a b ha hb hlt hnone => ?_⟩
    · obtain ⟨part, hpart, hkey⟩ := hkeys e (List.mem_cons_of_mem _ he)
      exact hkey ▸ hcanonical.positive part hpart
    · have ha' := (hmem a).mpr ha
      have hb' := (hmem b).mpr hb
      have hpair := (isChain_iff hinc _).mp hcanonical.distinct a ha' b hb' hlt ((hbetween a b (hle b hb')).mpr hnone)
      simpa [shareMapOps, valueMapOps] using hpair
  · intro hproper
    refine ⟨hinc, ?_, fun part hpart => ?_, ?_, fun _ _ => trivial, Nat.one_pos⟩
    · have hlast : CRangeMap.getSize ⟨insertAll [] ((size, 0) :: es), 1⟩ = size :=
        (getSize_eq_iff hinc (hkeys (size, 0) List.mem_cons_self)).mpr hle
      cases hend : (insertAll [] ((size, 0) :: es)).getLast? with
      | none =>
        simp only [CRangeMap.getSize, hend, Option.map_none, Option.getD_none] at hlast
        exact absurd hlast hsize.ne
      | some part =>
        simp only [CRangeMap.getSize, hend, Option.map_some, Option.getD_some] at hlast ⊢
        rw [hlast]
    · rcases List.mem_cons.mp ((hmem part).mp hpart).mem with rfl | he
      · exact hsize
      · exact hproper.positive part he
    · refine (isChain_iff hinc _).mpr fun a ha b hb hlt hnone => ?_
      have hpair := hproper.distinct a b ((hmem a).mp ha) ((hmem b).mp hb) hlt ((hbetween a b (hle b hb)).mp hnone)
      simpa [shareMapOps, valueMapOps] using hpair

/-- A share map is loaded as it was stored. Another text is refused or gives a canonical map if and only
if it has a key that is larger than the size, or its entries are proper. -/
theorem load_iff {size : ℕ} {map : CRangeMap (BitVec 16)} (h : Reachable shareMapOps size map)
    (hread : ReadsNumbers toULongLong) (hreadUInt : ∀ n < 2 ^ 32, toUInt (Nat.toDigits 10 n) = n) :
    ((CShareMap.load toULongLong toUInt (CShareMap.store map) (CRangeMap.create shareMapOps size)).1 = true ∧
      Canonical shareMapOps size (CShareMap.load toULongLong toUInt (CShareMap.store map)
        (CRangeMap.create shareMapOps size)).2 ∧
      ∀ x, stateAt shareMapOps (CShareMap.load toULongLong toUInt (CShareMap.store map)
        (CRangeMap.create shareMapOps size)).2 x = stateAt shareMapOps map x) ∧
    ∀ Map, LoadOk size (CShareMap.load toULongLong toUInt Map (CRangeMap.create shareMapOps size)) ↔
      (∃ e ∈ entries (BitVec.ofNat 16) toULongLong toUInt Map.Ranges, size < e.1) ∨
        Proper size (entries (BitVec.ofNat 16) toULongLong toUInt Map.Ranges) := by
  obtain ⟨hc, hsize⟩ := h.canonical
  have hpos : 0 < size := by
    obtain ⟨part, hpart, rfl⟩ := hc.exists_last
    exact hc.positive part hpart
  have hload : CShareMap.load toULongLong toUInt (CShareMap.store map)
      (CRangeMap.create shareMapOps size) = (true, ⟨map.partMap, 1⟩) := by
    have hsame : loadWith (BitVec.ofNat 16) toULongLong toUInt (storeWith BitVec.toNat map)
        (CRangeMap.create shareMapOps size) =
          (true, ⟨map.partMap.map fun part => (part.1, BitVec.ofNat 16 part.2.toNat), 1⟩) :=
      loadWith_storeWith hc hsize hread hreadUInt fun v => v.isLt.trans (by decide)
    simpa [CShareMap.load, CShareMap.store] using hsame
  refine ⟨?_, fun Map => ?_⟩
  · rw [hload]
    exact ⟨rfl, ⟨hc.increasing, hc.last, hc.positive, hc.distinct, hc.stored, Nat.one_pos⟩, fun _ => rfl⟩
  · rw [CShareMap.load, loadWith_create]
    by_cases hall : ∀ e ∈ entries (BitVec.ofNat 16) toULongLong toUInt Map.Ranges, e.1 ≤ size
    · have hnone : ¬ ∃ e ∈ entries (BitVec.ofNat 16) toULongLong toUInt Map.Ranges, size < e.1 :=
        fun ⟨e, he, hlt⟩ => (hall e he).not_gt hlt
      have hfinal : LoadOk size (true, ⟨final (BitVec.ofNat 16) toULongLong toUInt 0 size Map, 1⟩) ↔
          Canonical shareMapOps size ⟨final (BitVec.ofNat 16) toULongLong toUInt 0 size Map, 1⟩ := by
        constructor
        · rintro (hfalse | hok)
          · cases hfalse
          · exact hok.1
        · intro hcanonical
          exact Or.inr ⟨hcanonical, fun part hpart =>
            ⟨hcanonical.positive part hpart, hcanonical.le_size hpart⟩, hcanonical.getSize⟩
      rw [if_pos hall, or_iff_right hnone]
      exact hfinal.trans (canonical_final_iff hpos hall)
    · have hlarge : ∃ e ∈ entries (BitVec.ofNat 16) toULongLong toUInt Map.Ranges, size < e.1 := by
        simpa using hall
      rw [if_neg hall]
      exact iff_of_true (Or.inl rfl) (Or.inl hlarge)

/-- A map of ten bytes, and a text with all of its keys. -/
theorem load_iff_ten : (CShareMap.load digitsNumber digitsNumber (CShareMap.store threeOfTen)
        (CRangeMap.create shareMapOps 10)).1 = true ∧
      LoadOk 10 (CShareMap.load digitsNumber digitsNumber ⟨10, "12:1".toList⟩ (CRangeMap.create shareMapOps 10)) := by
  have hload := load_iff reachable_threeOfTen readsNumbers_digitsNumber
    fun n hn => readsNumbers_digitsNumber.digits n (hn.trans (by decide))
  exact ⟨hload.1.1, (hload.2 ⟨10, "12:1".toList⟩).mpr (Or.inl (by decide))⟩

/-- A text without an entry leaves an entry at zero. -/
theorem load_empty : ¬ ∀ Map, LoadOk 10 (CShareMap.load digitsNumber digitsNumber Map
    (CRangeMap.create shareMapOps 10)) := by
  intro h
  rcases h ⟨10, []⟩ with hfalse | ⟨hcanonical, -⟩
  · exact absurd hfalse (by decide)
  · exact absurd (hcanonical.positive (0, 0) (by decide)) (by decide)

end Results

end NeoLoader.RangeStorage
