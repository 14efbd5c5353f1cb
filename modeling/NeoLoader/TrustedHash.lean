import Mathlib.Algebra.Order.BigOperators.Group.List
import Mathlib.Algebra.Order.Ring.Int
import Mathlib.Algebra.Order.Ring.Nat
import Mathlib.Data.List.Induction

/-!
# The hash that enough referees name

Hashes of a file that come from other clients are candidates, each with its referees. The one with
the most votes is trusted if its share of all votes is large enough and enough votes were cast at
all. With more than half of the votes it is the only one that can be.
-/

namespace NeoLoader.TrustedHash

section Selection

variable {η α : Type*}

/-- `SReferee`: who names a hash. -/
inductive SReferee (α : Type*) where
  /-- `eIndividual`: the client with this address. -/
  | eIndividual (pAddr : α)
  /-- `eCollective`: so many clients. -/
  | eCollective (Count : ℕ)
  deriving DecidableEq

/-- `SFileHash`: a candidate. -/
structure SFileHash (η α : Type*) where
  fileHash : η
  referees : List (SReferee α)

/-- A number as an `int`. -/
def toInt (x : ℤ) : ℤ := x.bmod (2 ^ 32)

/-- What a referee counts. -/
def SReferee.votes : SReferee α → ℕ
  | eIndividual _ => 1
  | eCollective Count => Count

/-- The inner loop of `SelectTrustedHash`: the votes for a candidate. -/
def curCount (pCurHash : SFileHash η α) : ℤ :=
  pCurHash.referees.foldl (fun CurCount pReferee => toInt (CurCount + pReferee.votes)) 0

/-- The variables of `SelectTrustedHash`. -/
structure Tally (η : Type*) where
  /-- `pTrustedHash`. -/
  trustedHash : Option η
  bestCount : ℤ
  totalCount : ℤ

/-- The outer loop of `SelectTrustedHash`, for one candidate. -/
def count (t : Tally η) (pCurHash : SFileHash η α) : Tally η :=
  if t.bestCount < curCount pCurHash then
    ⟨some pCurHash.fileHash, curCount pCurHash, toInt (t.totalCount + curCount pCurHash)⟩
  else { t with totalCount := toInt (t.totalCount + curCount pCurHash) }

/-- The outer loop of `SelectTrustedHash`. -/
def tally (m : List (SFileHash η α)) : Tally η := m.foldl count ⟨none, 0, 0⟩

/-- How `SelectTrustedHash` ends. -/
inductive Selection (η : Type*) where
  /-- It divides by zero. -/
  | divisionByZero
  /-- It reads the hash of a null pointer. -/
  | nullHash
  /-- The result is false. -/
  | untrusted
  /-- The result is true, and this is the hash. -/
  | trusted (hash : η)
  deriving DecidableEq

/-- `CUntrustedFileHash::SelectTrustedHash`, with the candidates in the order of the iteration. -/
def selectTrustedHash (Majority Quorum : ℤ) (m : List (SFileHash η α)) : Selection η :=
  if (tally m).totalCount = 0 then .divisionByZero
  else if Majority ≤ (toInt ((tally m).bestCount * 100)).tdiv (tally m).totalCount ∧ Quorum ≤ (tally m).totalCount then
    match (tally m).trustedHash with
    | none => .nullHash
    | some hash => .trusted hash
  else .untrusted

/-- The votes for a candidate. -/
def votes (c : SFileHash η α) : ℕ := (c.referees.map SReferee.votes).sum

/-- All votes cast. -/
def cast (m : List (SFileHash η α)) : ℕ := (m.map votes).sum

theorem toInt_add (x y : ℤ) : toInt (toInt x + y) = toInt (x + y) := Int.bmod_add_bmod

theorem toInt_of_lt {x : ℕ} (hx : x < 2 ^ 31) : toInt x = x :=
  Int.bmod_eq_of_le_mul_two (by omega) (by omega)

variable {c : SFileHash η α}

/-- The inner loop adds the votes up. -/
theorem curCount_eq (hc : votes c < 2 ^ 31) : curCount c = votes c := by
  have hloop : ∀ (rs : List (SReferee α)) (n : ℤ),
      rs.foldl (fun CurCount pReferee => toInt (CurCount + pReferee.votes)) (toInt n) =
        toInt (n + (rs.map SReferee.votes).sum) := by
    intro rs
    induction rs with
    | nil => intro n; simp
    | cons r rs ih =>
      intro n
      rw [List.foldl_cons, toInt_add, ih, List.map_cons, List.sum_cons]
      push_cast
      rw [add_assoc]
  calc curCount c = toInt (0 + votes c) := hloop c.referees 0
    _ = votes c := by rw [zero_add, toInt_of_lt hc]

theorem votes_le_cast {m : List (SFileHash η α)} (hc : c ∈ m) : votes c ≤ cast m :=
  List.single_le_sum (fun _ _ => Nat.zero_le _) _ (List.mem_map_of_mem hc)

theorem votes_add_votes_le {m : List (SFileHash η α)} {c c' : SFileHash η α} (hc : c ∈ m)
    (hc' : c' ∈ m) (hne : c' ≠ c) : votes c + votes c' ≤ cast m := by
  obtain ⟨s, t, rfl⟩ := List.append_of_mem hc
  have hcast : cast (s ++ c :: t) = votes c + cast (s ++ t) := by
    simp only [cast, List.map_append, List.map_cons, List.sum_append, List.sum_cons]
    omega
  have hrest : c' ∈ s ++ t := by
    simpa [hne] using hc'
  have hle := votes_le_cast hrest
  omega

theorem cast_perm {m m' : List (SFileHash η α)} (h : m.Perm m') : cast m = cast m' :=
  (h.map votes).sum_eq

/-- What the loop has found out about the candidates it has seen. -/
structure Counted (m : List (SFileHash η α)) (t : Tally η) : Prop where
  /-- All votes cast. -/
  total : t.totalCount = toInt (cast m)
  /-- No candidate has more votes than the best. -/
  le : ∀ c ∈ m, (votes c : ℤ) ≤ t.bestCount
  /-- Without a best candidate there are no votes. -/
  none : t.trustedHash = .none → t.bestCount = 0
  /-- The best candidate has the most votes. -/
  some : ∀ h, t.trustedHash = .some h → ∃ c ∈ m, c.fileHash = h ∧ t.bestCount = votes c

/-- One candidate more is counted. -/
theorem counted_count {m : List (SFileHash η α)} {t : Tally η} (ht : Counted m t) (hc : votes c < 2 ^ 31) : Counted
    (m ++ [c]) (count t c) := by
  have htotal : toInt (t.totalCount + curCount c) = toInt (cast (m ++ [c])) := by
    rw [ht.total, toInt_add, curCount_eq hc]
    simp [cast]
  rw [count]
  split_ifs with hbest
  · refine ⟨htotal, fun d hd => ?_, nofun, fun h hh => ⟨c, by simp, ?_, curCount_eq hc⟩⟩
    · rcases List.mem_append.mp hd with hd | hd
      · exact (ht.le d hd).trans hbest.le
      · rw [List.mem_singleton.mp hd]
        exact (curCount_eq hc).ge
    · exact Option.some.inj hh
  · refine ⟨htotal, fun d hd => ?_, ht.none, fun h hh => ?_⟩
    · rcases List.mem_append.mp hd with hd | hd
      · exact ht.le d hd
      · rw [List.mem_singleton.mp hd, ← curCount_eq hc]
        exact not_lt.mp hbest
    · obtain ⟨d, hd, hwinner⟩ := ht.some h hh
      exact ⟨d, List.mem_append_left _ hd, hwinner⟩

theorem counted_tally {m : List (SFileHash η α)} (hm : ∀ c ∈ m, votes c < 2 ^ 31) : Counted m (tally m) := by
  induction m using List.reverseRecOn with
  | nil => exact ⟨(toInt_of_lt (x := 0) (by decide)).symm, nofun, fun _ => rfl, nofun⟩
  | append_singleton m c ih =>
    rw [tally, List.foldl_append]
    exact counted_count (ih fun d hd => hm d (List.mem_append_left _ hd)) (hm c (by simp))

section Range

variable {m : List (SFileHash η α)} {Majority Quorum : ℤ}

/-- A candidate is trusted whose share is large enough, if enough votes were cast. -/
def Elected (Majority Quorum : ℤ) (m : List (SFileHash η α)) (c : SFileHash η α) : Prop :=
  c ∈ m ∧ Majority * cast m ≤ votes c * 100 ∧ Quorum ≤ cast m

theorem share_iff (Majority : ℤ) {best : ℕ} (hbest : best * 100 < 2 ^ 31) (hcast : 0 < cast m) :
    Majority ≤ (toInt ((best : ℤ) * 100)).tdiv (cast m) ↔ Majority * cast m ≤ best * 100 := by
  have hint : toInt ((best : ℤ) * 100) = best * 100 := by
    have h := toInt_of_lt hbest
    push_cast at h
    exact h
  rw [hint, Int.tdiv_eq_ediv_of_nonneg (by omega), Int.le_ediv_iff_mul_le (by omega)]

/-- With votes that fit, the candidate with the most of them is trusted or none. -/
theorem selectTrustedHash_cases (Majority Quorum : ℤ) (hcast : 0 < cast m)
    (htotal : cast m < 2 ^ 31) (hbest : ∀ c ∈ m, votes c * 100 < 2 ^ 31) : ∃ c ∈ m, (∀ d ∈ m, votes d ≤ votes c) ∧
      (Elected Majority Quorum m c ∧ selectTrustedHash Majority Quorum m = .trusted c.fileHash ∨
        ¬ Elected Majority Quorum m c ∧ selectTrustedHash Majority Quorum m = .untrusted) := by
  have ht := counted_tally fun c hc => (by have := hbest c hc; omega : votes c < 2 ^ 31)
  have hsum : (tally m).totalCount = cast m := by rw [ht.total, toInt_of_lt htotal]
  have hvoted : (tally m).bestCount ≠ 0 := by
    intro hzero
    have hall : cast m = 0 := by
      refine List.sum_eq_zero fun n hn => ?_
      obtain ⟨c, hc, rfl⟩ := List.mem_map.mp hn
      have hle := ht.le c hc
      omega
    omega
  obtain ⟨h, hh⟩ := Option.ne_none_iff_exists'.mp fun hnone => hvoted (ht.none hnone)
  obtain ⟨c, hc, rfl, hcount⟩ := ht.some h hh
  refine ⟨c, hc, fun d hd => by have := ht.le d hd; omega, ?_⟩
  have hshare := share_iff Majority (hbest c hc) hcast
  rw [selectTrustedHash, hsum, hcount, hh, if_neg (by omega)]
  split_ifs with helected
  · exact Or.inl ⟨⟨hc, hshare.mp helected.1, helected.2⟩, rfl⟩
  · exact Or.inr ⟨fun h => helected ⟨hshare.mpr h.2.1, h.2.2⟩, rfl⟩

theorem elected_unique (hcast : 0 < cast m) (hhalf : 50 < Majority) {c d : SFileHash η α}
    (hc : Elected Majority Quorum m c) (hd : Elected Majority Quorum m d) : d = c := by
  by_contra hne
  have hsum := votes_add_votes_le hc.1 hd.1 hne
  have hmore : 51 * (cast m : ℤ) ≤ Majority * cast m :=
    mul_le_mul_of_nonneg_right (by omega) (by omega)
  have hcshare := hc.2.1
  have hdshare := hd.2.1
  omega

/-- Above half of the votes, a candidate is trusted if and only if it is elected. -/
theorem selectTrustedHash_eq_trusted_iff (hcast : 0 < cast m) (htotal : cast m < 2 ^ 31)
    (hbest : ∀ c ∈ m, votes c * 100 < 2 ^ 31) (hhalf : 50 < Majority) (h : η) :
    selectTrustedHash Majority Quorum m = .trusted h ↔ ∃ c, Elected Majority Quorum m c ∧ c.fileHash = h := by
  obtain ⟨c, hc, hmost, ⟨helected, hselect⟩ | ⟨hlost, hselect⟩⟩ :=
    selectTrustedHash_cases Majority Quorum hcast htotal hbest
  · rw [hselect]
    constructor
    · exact fun heq => ⟨c, helected, Selection.trusted.inj heq⟩
    · rintro ⟨d, hd, rfl⟩
      rw [elected_unique hcast hhalf hd helected]
  · rw [hselect]
    constructor
    · exact nofun
    · rintro ⟨d, hd, rfl⟩
      have hle := hmost d hd.1
      have hshare := hd.2.1
      exact absurd ⟨hc, by omega, hd.2.2⟩ hlost

theorem elected_perm {m' : List (SFileHash η α)} (hperm : m.Perm m') (c : SFileHash η α) :
    Elected Majority Quorum m' c ↔ Elected Majority Quorum m c := by
  rw [Elected, Elected, cast_perm hperm, hperm.mem_iff]

/-- Above half of the votes the order of the candidates does not matter. -/
theorem selectTrustedHash_perm (hcast : 0 < cast m) (htotal : cast m < 2 ^ 31)
    (hbest : ∀ c ∈ m, votes c * 100 < 2 ^ 31) (hhalf : 50 < Majority) {m' : List (SFileHash η α)} (hperm : m.Perm m') :
    selectTrustedHash Majority Quorum m' = selectTrustedHash Majority Quorum m := by
  have hsame := cast_perm hperm
  have hbest' : ∀ c ∈ m', votes c * 100 < 2 ^ 31 := fun c hc => hbest c (hperm.mem_iff.mpr hc)
  have htrusted : ∀ h, selectTrustedHash Majority Quorum m' = .trusted h ↔
      selectTrustedHash Majority Quorum m = .trusted h := by
    intro h
    rw [selectTrustedHash_eq_trusted_iff (hsame ▸ hcast) (hsame ▸ htotal) hbest' hhalf,
      selectTrustedHash_eq_trusted_iff hcast htotal hbest hhalf]
    simp only [elected_perm hperm]
  obtain ⟨c, -, -, ⟨-, hselect⟩ | ⟨-, hselect⟩⟩ :=
    selectTrustedHash_cases Majority Quorum hcast htotal hbest
  · rw [hselect, htrusted, hselect]
  · obtain ⟨d, -, -, ⟨-, hselect'⟩ | ⟨-, hselect'⟩⟩ :=
      selectTrustedHash_cases Majority Quorum (hsame ▸ hcast) (hsame ▸ htotal) hbest'
    · have hboth := (htrusted _).mp hselect'
      rw [hselect] at hboth
      cases hboth
    · rw [hselect, hselect']

/-- With votes that fit, no division is by zero, what is trusted has its share of enough votes, and
above half of the votes the order of the candidates does not matter. -/
theorem selectTrustedHash_safe (hcast : 0 < cast m) (htotal : cast m < 2 ^ 31)
    (hbest : ∀ c ∈ m, votes c * 100 < 2 ^ 31) :
    selectTrustedHash Majority Quorum m ≠ .divisionByZero ∧ (∀ h, selectTrustedHash Majority Quorum m = .trusted h →
        ∃ c ∈ m, c.fileHash = h ∧ Quorum ≤ cast m ∧ Majority * cast m ≤ votes c * 100) ∧
      (50 < Majority → ∀ m', m.Perm m' →
        selectTrustedHash Majority Quorum m' = selectTrustedHash Majority Quorum m) := by
  refine ⟨?_, fun h hh => ?_, fun hhalf m' hperm =>
    selectTrustedHash_perm hcast htotal hbest hhalf hperm⟩
  · obtain ⟨c, -, -, ⟨-, hselect⟩ | ⟨-, hselect⟩⟩ :=
      selectTrustedHash_cases Majority Quorum hcast htotal hbest
    · rw [hselect]
      exact nofun
    · rw [hselect]
      exact nofun
  · obtain ⟨c, hc, -, ⟨helected, hselect⟩ | ⟨-, hselect⟩⟩ :=
      selectTrustedHash_cases Majority Quorum hcast htotal hbest
    · rw [hselect] at hh
      exact ⟨c, hc, Selection.trusted.inj hh, helected.2.2, helected.2.1⟩
    · rw [hselect] at hh
      cases hh

end Range

section Candidates

variable [DecidableEq α]

/-- A client names a candidate, unless it has done so before. -/
def addReferee (Address : α) (c : SFileHash η α) : SFileHash η α :=
  if .eIndividual Address ∈ c.referees then c
  else { c with referees := c.referees ++ [.eIndividual Address] }

variable [DecidableEq η]

/-- `CUntrustedFileHash::AddHash`. -/
def addHash (hash : η) (Address : α) : List (SFileHash η α) → List (SFileHash η α)
  | [] => [⟨hash, [.eIndividual Address]⟩]
  | c :: m =>
    if c.fileHash = hash then addReferee Address c :: m else c :: addHash hash Address m

/-- The candidates that these clients have named, one after the other. -/
def candidates (named : List (η × α)) : List (SFileHash η α) :=
  named.foldl (fun m n => addHash n.1 n.2 m) []

/-- Nine clients name one hash and a tenth another. -/
def tenNamed : List (ℕ × ℕ) := (List.range 9).map (fun i => (1, i)) ++ [(2, 9)]

/-- The hash that nine of ten clients name. -/
theorem selectTrustedHash_safe_ten : selectTrustedHash 90 10 (candidates tenNamed) ≠ .divisionByZero ∧
      (∀ h, selectTrustedHash 90 10 (candidates tenNamed) = .trusted h →
        ∃ c ∈ candidates tenNamed, c.fileHash = h ∧ (10 : ℤ) ≤ cast (candidates tenNamed) ∧
          90 * (cast (candidates tenNamed) : ℤ) ≤ votes c * 100) ∧
      (∀ m', (candidates tenNamed).Perm m' →
        selectTrustedHash 90 10 m' = selectTrustedHash 90 10 (candidates tenNamed)) :=
  have hsafe := selectTrustedHash_safe (m := candidates tenNamed) (by decide) (by decide) (by decide)
  ⟨hsafe.1, hsafe.2.1, hsafe.2.2 (by decide)⟩

/-- With the default settings the nine votes for a hash are fewer than the quorum, and it is trusted.
Without a candidate, or with so many votes that their number wraps around, the division is by zero. -/
theorem selectTrustedHash_nine : selectTrustedHash 90 10 (candidates tenNamed) = .trusted 1 ∧
      (∀ c ∈ candidates tenNamed, votes c < 10) ∧
      selectTrustedHash 90 10 (candidates ([] : List (ℕ × ℕ))) = .divisionByZero ∧
      selectTrustedHash 90 10 [(⟨1, [.eCollective (2 ^ 31)]⟩ : SFileHash ℕ ℕ),
        ⟨2, [.eCollective (2 ^ 31)]⟩] = .divisionByZero := by
  refine ⟨by decide, by decide, by decide, by decide⟩

end Candidates

end Selection

end NeoLoader.TrustedHash
