import NeoLoader.KeyMapTotals
import NeoLoader.RangeMap

/-!
# Who hosts each byte

A hoster map has for each range the hosters that have it, with the number of public copies and the
number of own copies in each account. To take a copy away again, its count is subtracted if that
leaves something, and a count of an account is removed otherwise. A public count stays.
-/

namespace NeoLoader.KeyMap.OrderedMap

variable {κ ν μ : Type*} [LinearOrder κ]

instance [DecidableEq ν] : DecidableEq (OrderedMap κ ν) := fun m m' =>
  decidable_of_iff (m.entries = m'.entries) ⟨fun h => by cases m; cases m'; simpa using h, fun h => congrArg _ h⟩

theorem get_cons {e : κ × ν} {l : List (κ × ν)} (hl : (e :: l).Pairwise fun a b => a.1 < b.1) (k : κ) :
    (⟨e :: l, hl⟩ : OrderedMap κ ν).get k = if e.1 = k then some e.2 else (⟨l, hl.of_cons⟩ : OrderedMap κ ν).get k := by
  rw [get, get, List.find?_cons]
  split_ifs with hk
  · rw [decide_eq_true hk]
    rfl
  · rw [decide_eq_false hk]

/-- A loop over the entries of a map, each of which changes the value at its key, changes the value
at each of its keys once. -/
theorem get_foldl_entries {f : OrderedMap κ ν → κ × μ → OrderedMap κ ν} {g : Option ν → μ → Option ν}
    (hf : ∀ m e k, (f m e).get k = if k = e.1 then g (m.get k) e.2 else m.get k)
    (m : OrderedMap κ ν) (other : OrderedMap κ μ) (k : κ) :
    (other.entries.foldl f m).get k = (other.get k).elim (m.get k) (g (m.get k)) := by
  obtain ⟨l, hl⟩ := other
  dsimp only
  induction l generalizing m with
  | nil => rfl
  | cons e l ih =>
    obtain ⟨hlt, hrest⟩ := List.pairwise_cons.mp hl
    rw [List.foldl_cons, ih _ hrest, hf, get_cons]
    split_ifs with hk hne hne
    · have hnone : (⟨l, hrest⟩ : OrderedMap κ μ).get k = none :=
        get_eq_none.mpr fun v hv => absurd hk (hlt _ hv).ne'
      rw [hnone]
      rfl
    · exact absurd hk.symm hne
    · exact absurd hne.symm hk
    · rfl

end NeoLoader.KeyMap.OrderedMap

namespace NeoLoader.HosterMap

open KeyMap RangeMap

variable {κ α : Type*} [LinearOrder κ] [LinearOrder α]

/-- `SHosterRange`: the copies on a hoster. Counts are of the type `int`. -/
structure SHosterRange (α : Type*) [LinearOrder α] where
  pubCount : BitVec 32
  /-- `MyCounts`: the copies in each account. -/
  myCounts : OrderedMap α (BitVec 32)
  deriving DecidableEq

namespace SHosterRange

/-- `SHosterRange::Total`. -/
def total (v : SHosterRange α) : BitVec 32 :=
  v.myCounts.entries.foldl (fun Count MyCount => Count + MyCount.2) v.pubCount

/-- What `eAdd` makes of an entry. -/
def add (J I : SHosterRange α) : SHosterRange α where
  pubCount := J.pubCount + I.pubCount
  myCounts := I.myCounts.entries.foldl
    (fun MyCounts K => MyCounts.insert K.1 ((MyCounts.get K.1).getD 0 + K.2)) J.myCounts

/-- What `eClr` makes of an entry, before its total is looked at. -/
def clear (J I : SHosterRange α) : SHosterRange α where
  pubCount := if I.pubCount.slt J.pubCount then J.pubCount - I.pubCount else J.pubCount
  myCounts := I.myCounts.entries.foldl (fun MyCounts K =>
      if K.2.slt ((MyCounts.get K.1).getD 0) then
        MyCounts.insert K.1 ((MyCounts.get K.1).getD 0 - K.2)
      else MyCounts.erase K.1) J.myCounts

/-- What `eUnion` makes of an entry. -/
def union (J I : SHosterRange α) : SHosterRange α where
  pubCount := if J.pubCount.slt I.pubCount then I.pubCount else J.pubCount
  myCounts := I.myCounts.entries.foldl (fun MyCounts K => MyCounts.insert K.1
      (if ((MyCounts.get K.1).getD 0).slt K.2 then K.2 else (MyCounts.get K.1).getD 0)) J.myCounts

/-- What `eInter` makes of an entry. A public count of -1 marks the value of an iteration. -/
def inter (J I : SHosterRange α) : SHosterRange α :=
  if I.pubCount = -1 then J
  else
    { pubCount := if I.pubCount.slt J.pubCount then I.pubCount else J.pubCount
      myCounts := I.myCounts.entries.foldl (fun MyCounts K => MyCounts.insert K.1
          (if K.2.slt ((MyCounts.get K.1).getD 0) then K.2 else (MyCounts.get K.1).getD 0))
        J.myCounts }

end SHosterRange

/-- The value of a range: the hosters that have it. -/
abbrev Hosters (κ α : Type*) [LinearOrder κ] [LinearOrder α] := OrderedMap κ (SHosterRange α)

/-- `CHosterMap::MkValue`. An empty account name is none. -/
def mkValue (Hoster : κ) (Account : Option α) (Count : BitVec 32) : Hosters κ α :=
  match Account with
  | none => OrderedMap.empty.insert Hoster ⟨Count, OrderedMap.empty⟩
  | some Account => OrderedMap.empty.insert Hoster ⟨0, OrderedMap.empty.insert Account Count⟩

/-- The loop of `eAdd`. -/
def hosterAdd (Cur State : Hosters κ α) : Hosters κ α :=
  State.entries.foldl (fun Cur I =>
    match Cur.get I.1 with
    | some J => Cur.insert I.1 (J.add I.2)
    | none => Cur.insert I.1 I.2) Cur

/-- The loop of `eClr`. -/
def hosterClear (Cur State : Hosters κ α) : Hosters κ α :=
  State.entries.foldl (fun Cur I =>
    match Cur.get I.1 with
    | some J => if (J.clear I.2).total = 0 then Cur.erase I.1 else Cur.insert I.1 (J.clear I.2)
    | none => Cur) Cur

/-- The loop of `eUnion`. -/
def hosterUnion (Cur State : Hosters κ α) : Hosters κ α :=
  State.entries.foldl (fun Cur I =>
    match Cur.get I.1 with
    | some J => Cur.insert I.1 (J.union I.2)
    | none => Cur.insert I.1 I.2) Cur

/-- The loop of `eInter`. -/
def hosterInter (Cur State : Hosters κ α) : Hosters κ α :=
  State.entries.foldl (fun New I =>
    match Cur.get I.1 with
    | some J => New.insert I.1 (J.inter I.2)
    | none => New) OrderedMap.empty

/-- `CHosterMap::MakeState`. -/
def hosterMakeState (Cur State : Hosters κ α) : ESet → Hosters κ α
  | ESet.eSet => State
  | ESet.eAdd => hosterAdd Cur State
  | ESet.eClr => hosterClear Cur State

/-- `CHosterMap::MergeState`. -/
def hosterMergeState (Cur State : Hosters κ α) : EMerge → Hosters κ α
  | EMerge.eUnion => hosterUnion Cur State
  | EMerge.eInter => hosterInter Cur State

/-- The virtual functions of `CHosterMap`. -/
def hosterMapOps (κ α : Type*) [LinearOrder κ] [LinearOrder α] : StateOps (Hosters κ α) where
  default := OrderedMap.empty
  stateSet := fun Cur => !Cur.entries.isEmpty
  matchState := fun Cur State => Cur = State
  makeState := hosterMakeState
  mergeState := hosterMergeState
  Stored := fun _ => True
  stateSet_default := rfl
  stored_default := trivial
  stored_makeState := fun _ _ _ => trivial
  stored_mergeState := fun _ _ _ => trivial
  matchState_iff := fun _ _ => decide_eq_true_iff

section Entries

variable (J I : SHosterRange α)

theorem get_myCounts_add (k : α) : (J.add I).myCounts.get k = (I.myCounts.get k).elim (J.myCounts.get k)
      fun n => some ((J.myCounts.get k).getD 0 + n) := by
  have hloop := OrderedMap.get_foldl_entries (g := fun m n => some (m.getD 0 + n))
    (f := fun (m : OrderedMap α (BitVec 32)) (K : α × BitVec 32) =>
      m.insert K.1 ((m.get K.1).getD 0 + K.2)) (fun m e k => ?_) J.myCounts I.myCounts k
  · exact hloop
  · split_ifs with hk
    · rw [hk, OrderedMap.get_insert_self]
    · exact OrderedMap.get_insert_of_ne _ _ hk

/-- The counts of the accounts after taking away. -/
theorem get_myCounts_clear (k : α) : (J.clear I).myCounts.get k = (I.myCounts.get k).elim (J.myCounts.get k)
      fun n => if n.slt ((J.myCounts.get k).getD 0) then some ((J.myCounts.get k).getD 0 - n)
        else none := by
  have hloop := OrderedMap.get_foldl_entries (g := fun m n => if n.slt (m.getD 0) then some (m.getD 0 - n) else none)
    (f := fun (m : OrderedMap α (BitVec 32)) (K : α × BitVec 32) =>
      if K.2.slt ((m.get K.1).getD 0) then m.insert K.1 ((m.get K.1).getD 0 - K.2)
      else m.erase K.1) (fun m e k => ?_) J.myCounts I.myCounts k
  · exact hloop
  · by_cases hk : k = e.1
    · rw [if_pos hk, hk]
      split_ifs
      · exact OrderedMap.get_insert_self _ _ _
      · exact OrderedMap.get_erase_self _ _
    · rw [if_neg hk]
      split_ifs
      · exact OrderedMap.get_insert_of_ne _ _ hk
      · exact OrderedMap.get_erase_of_ne _ hk

theorem SHosterRange.ext_counts {J J' : SHosterRange α} (hpub : J.pubCount = J'.pubCount)
    (hmy : ∀ k, J.myCounts.get k = J'.myCounts.get k) : J = J' := by
  cases J
  cases J'
  rw [SHosterRange.mk.injEq]
  exact ⟨hpub, OrderedMap.ext_get hmy⟩

theorem SHosterRange.add_comm : J.add I = I.add J := by
  refine ext_counts (BitVec.add_comm _ _) fun k => ?_
  rw [get_myCounts_add, get_myCounts_add]
  cases I.myCounts.get k <;> cases J.myCounts.get k <;> simp [BitVec.add_comm]

/-- Two entries may be added one after the other in any order. -/
theorem SHosterRange.add_right_comm (J I I' : SHosterRange α) : (J.add I).add I' = (J.add I').add I := by
  have hthree : ∀ a b c : BitVec 32, a + b + c = a + c + b := fun a b c => by
    rw [BitVec.add_assoc, BitVec.add_comm b, BitVec.add_assoc]
  refine ext_counts (hthree _ _ _) fun k => ?_
  simp only [get_myCounts_add]
  cases I.myCounts.get k with
  | none => rfl
  | some n =>
    cases I'.myCounts.get k with
    | none => rfl
    | some n' => exact congrArg some (hthree _ _ _)

/-- The entry of a hoster after adding. -/
theorem get_hosterAdd (Cur State : Hosters κ α) (h : κ) : (hosterAdd Cur State).get h = (State.get h).elim (Cur.get h)
      fun I => some ((Cur.get h).elim I fun J => J.add I) := by
  have hloop := OrderedMap.get_foldl_entries
    (g := fun (J : Option (SHosterRange α)) I => some (J.elim I fun J => J.add I))
    (f := fun (Cur : Hosters κ α) (I : κ × SHosterRange α) =>
      match Cur.get I.1 with
      | some J => Cur.insert I.1 (J.add I.2)
      | none => Cur.insert I.1 I.2) (fun m e k => ?_) Cur State h
  · exact hloop
  · cases hget : m.get e.1 with
    | none =>
      split_ifs with hk
      · rw [hk, hget, OrderedMap.get_insert_self]
        rfl
      · exact OrderedMap.get_insert_of_ne _ _ hk
    | some J =>
      split_ifs with hk
      · rw [hk, hget, OrderedMap.get_insert_self]
        rfl
      · exact OrderedMap.get_insert_of_ne _ _ hk

/-- The entry of a hoster after taking away. -/
theorem get_hosterClear (Cur State : Hosters κ α) (h : κ) :
    (hosterClear Cur State).get h = (State.get h).elim (Cur.get h) fun I =>
      (Cur.get h).bind fun J => if (J.clear I).total = 0 then none else some (J.clear I) := by
  have hloop := OrderedMap.get_foldl_entries (g := fun (J : Option (SHosterRange α)) I =>
      J.bind fun J => if (J.clear I).total = 0 then none else some (J.clear I))
    (f := fun (Cur : Hosters κ α) (I : κ × SHosterRange α) =>
      match Cur.get I.1 with
      | some J => if (J.clear I.2).total = 0 then Cur.erase I.1 else Cur.insert I.1 (J.clear I.2)
      | none => Cur) (fun m e k => ?_) Cur State h
  · exact hloop
  · cases hget : m.get e.1 with
    | none =>
      dsimp only
      split_ifs with hk
      · rw [hk, hget]
        rfl
      · rfl
    | some J =>
      by_cases hk : k = e.1
      · rw [if_pos hk, hk, hget, Option.bind_some]
        dsimp only
        split_ifs
        · exact OrderedMap.get_erase_self _ _
        · exact OrderedMap.get_insert_self _ _ _
      · rw [if_neg hk]
        dsimp only
        split_ifs
        · exact OrderedMap.get_erase_of_ne _ hk
        · exact OrderedMap.get_insert_of_ne _ _ hk

/-- Two values may be added one after the other in any order. -/
theorem hosterAdd_right_comm (u v w : Hosters κ α) : hosterAdd (hosterAdd u v) w = hosterAdd (hosterAdd u w) v := by
  refine OrderedMap.ext_get fun h => ?_
  simp only [get_hosterAdd]
  cases v.get h with
  | none => rfl
  | some I =>
    cases w.get h with
    | none => rfl
    | some I' =>
      cases u.get h with
      | none => exact congrArg some (I.add_comm I')
      | some J => exact congrArg some (J.add_right_comm I I')

/-- The counts of an entry with which another one can be added and taken away again: the entry
counts something, what is added to the public count stays less than the sum, and what is added to an
account that has a count already, too. -/
structure Withstands (J I : SHosterRange α) : Prop where
  /-- The entry counts something. -/
  total : J.total ≠ 0
  /-- The public count. -/
  pubCount : I.pubCount = 0 ∨ I.pubCount.slt (J.pubCount + I.pubCount) = true
  /-- The counts of accounts that are there. -/
  myCounts : ∀ k n m, I.myCounts.get k = some n → J.myCounts.get k = some m → n.slt (m + n) = true

/-- The states to which a value can be added and taken away again: a hoster that is new has no public
count in the value, and any other one has an entry that withstands it. -/
def Undoes (u v : Hosters κ α) : Prop :=
  ∀ h I, v.get h = some I → (u.get h).elim (I.pubCount = 0) fun J => Withstands J I

theorem slt_self (n : BitVec 32) : n.slt n = false := by
  rw [BitVec.slt_eq_decide]
  exact decide_eq_false (lt_irrefl _)

theorem get_myCounts_clear_add (k : α) :
    ((J.add I).clear I).myCounts.get k = (I.myCounts.get k).elim (J.myCounts.get k) fun n =>
      (J.myCounts.get k).bind fun m => if n.slt (m + n) then some m else none := by
  rw [get_myCounts_clear, get_myCounts_add]
  cases I.myCounts.get k with
  | none => rfl
  | some n =>
    cases J.myCounts.get k with
    | none => simp [slt_self]
    | some m => simp [BitVec.add_sub_cancel]

/-- Adding an entry and taking it away gives the counts back. -/
theorem clear_add_iff : (J.add I).clear I = J ↔ (I.pubCount = 0 ∨ I.pubCount.slt (J.pubCount + I.pubCount) = true) ∧
      ∀ k n m, I.myCounts.get k = some n → J.myCounts.get k = some m → n.slt (m + n) = true := by
  have hpub : ((J.add I).clear I).pubCount = J.pubCount ↔
      I.pubCount = 0 ∨ I.pubCount.slt (J.pubCount + I.pubCount) = true := by
    have hclear : ((J.add I).clear I).pubCount =
        if I.pubCount.slt (J.pubCount + I.pubCount) then J.pubCount + I.pubCount - I.pubCount
        else J.pubCount + I.pubCount := rfl
    rw [hclear]
    split_ifs with hless
    · exact iff_of_true (BitVec.add_sub_cancel _ _) (Or.inr hless)
    · rw [or_iff_left hless]
      exact BitVec.add_right_eq_self
  have hmy : ∀ k, ((J.add I).clear I).myCounts.get k = J.myCounts.get k ↔
      ∀ n m, I.myCounts.get k = some n → J.myCounts.get k = some m → n.slt (m + n) = true := by
    intro k
    rw [get_myCounts_clear_add]
    cases I.myCounts.get k with
    | none => exact iff_of_true rfl nofun
    | some n =>
      cases J.myCounts.get k with
      | none => exact iff_of_true rfl nofun
      | some m =>
        rw [Option.elim_some, Option.bind_some]
        split_ifs with hless
        · refine iff_of_true rfl ?_
          rintro _ _ ⟨⟩ ⟨⟩
          exact hless
        · exact iff_of_false not_false fun hall => hless (hall n m rfl rfl)
  constructor
  · intro hsame
    rw [hsame] at hpub hmy
    exact ⟨hpub.mp rfl, fun k n m => (hmy k).mp rfl n m⟩
  · rintro ⟨hp, hm⟩
    exact SHosterRange.ext_counts (hpub.mpr hp) fun k => (hmy k).mpr (hm k)

theorem clear_self (I : SHosterRange α) : I.clear I = ⟨I.pubCount, OrderedMap.empty⟩ := by
  refine SHosterRange.ext_counts ?_ fun k => ?_
  · have hclear : (I.clear I).pubCount =
        if I.pubCount.slt I.pubCount then I.pubCount - I.pubCount else I.pubCount := rfl
    rw [hclear, slt_self, if_neg Bool.false_ne_true]
  · rw [get_myCounts_clear]
    cases I.myCounts.get k with
    | none => rfl
    | some n => simp [slt_self]

/-- A value that is added and taken away again leaves the state if and only if the state undoes it. -/
theorem hosterClear_hosterAdd_iff (u v : Hosters κ α) : hosterClear (hosterAdd u v) v = u ↔ Undoes u v := by
  have hentry : ∀ h, (hosterClear (hosterAdd u v) v).get h = u.get h ↔
      ∀ I, v.get h = some I → (u.get h).elim (I.pubCount = 0) fun J => Withstands J I := by
    intro h
    rw [get_hosterClear, get_hosterAdd]
    cases v.get h with
    | none => exact iff_of_true rfl nofun
    | some I =>
      have hall : ∀ P : SHosterRange α → Prop, (∀ I', some I = some I' → P I') ↔ P I :=
        fun P => ⟨fun hP => hP I rfl, by rintro hP _ ⟨⟩; exact hP⟩
      rw [hall]
      cases u.get h with
      | none =>
        dsimp only [Option.elim_some, Option.elim_none, Option.bind_some]
        rw [clear_self]
        have htotal : (⟨I.pubCount, OrderedMap.empty⟩ : SHosterRange α).total = I.pubCount := rfl
        rw [htotal]
        split_ifs with hzero
        · exact iff_of_true rfl hzero
        · exact iff_of_false nofun hzero
      | some J =>
        dsimp only [Option.elim_some, Option.bind_some]
        constructor
        · intro hsame
          split_ifs at hsame with hzero
          have hback := Option.some.inj hsame
          rw [hback] at hzero
          obtain ⟨hpub, hmy⟩ := (clear_add_iff J I).mp hback
          exact ⟨hzero, hpub, hmy⟩
        · rintro ⟨htotal, hpub, hmy⟩
          rw [(clear_add_iff J I).mpr ⟨hpub, hmy⟩, if_neg htotal]
  constructor
  · intro hsame h
    exact (hentry h).mp (by rw [hsame])
  · exact fun hall => OrderedMap.ext_get fun h => (hentry h).mpr (hall h)

end Entries

end NeoLoader.HosterMap
