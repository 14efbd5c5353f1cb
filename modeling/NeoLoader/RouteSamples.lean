import Mathlib.Algebra.BigOperators.Group.List.Basic
import NeoLoader.RouteStats

/-!
# Samples of round trip times

A window keeps the sum of its entries, which is right only if it is not filled anew while it has entries of
its own, no entry overflows, and there are entries at all. The first sample of a round trip time is taken
as eight times the estimate without being multiplied by eight, so the estimate begins too small, and a first
sample of zero makes the next one fill a window that is there already.
-/

namespace NeoLoader.RouteSamples

open RouteStats

section Windows

/-- `SSummWindow::Update`. -/
def update (Value : ℕ) (w : SSummWindow) : SSummWindow :=
  { w with
    movingWindow := w.movingWindow.set w.position ((w.movingWindow.getD w.position 0 + Value) % 2 ^ 32)
    totalSumm := (w.totalSumm + Value) % 2 ^ 64 }

/-- A call for a window. -/
inductive WindowOp where
  | init (Size : Fin (2 ^ 31)) (Value : BitVec 32)
  | update (Value : BitVec 32)
  | add (Value : BitVec 32)

/-- The window after a call, unless it reads an entry that is not there. -/
def windowStep (w : SSummWindow) : WindowOp → Option SSummWindow
  | .init Size Value => some (w.init Size Value.toNat)
  | .update Value => if w.position < w.movingWindow.length then some (update Value.toNat w) else none
  | .add Value => if w.movingWindow.length = 0 then none else some (w.add Value.toNat)

/-- What is expected of a window: the sum, and an average between the smallest and the largest entry. -/
def WindowOk (w : SSummWindow) : Prop :=
  w.totalSumm = w.movingWindow.sum ∧ ∀ low high, (∀ e ∈ w.movingWindow, low ≤ e ∧ e ≤ high) →
    w.movingWindow ≠ [] → low ≤ w.getAverage ∧ w.getAverage ≤ high

/-- The windows of a run are as expected, and no entry is read that is not there. -/
def WindowsOk : SSummWindow → List WindowOp → Prop
  | _, [] => True
  | w, op :: ops =>
    match windowStep w op with
    | none => False
    | some w' => WindowOk w' ∧ WindowsOk w' ops

/-- A call that keeps the sum right: a new sum is that of the entries that are kept and added, without one
no entries other than zero are cut off, and an entry is there and does not overflow. -/
def OpOk (w : SSummWindow) : WindowOp → Prop
  | .init Size Value =>
    if Value.toNat = 0 then (w.movingWindow.drop Size).sum = 0
    else Value.toNat * Size % 2 ^ 32 = (w.movingWindow.take Size).sum + (Size - w.movingWindow.length) * Value.toNat
  | .update Value => w.position < w.movingWindow.length ∧ w.movingWindow.getD w.position 0 + Value.toNat < 2 ^ 32
  | .add _ => w.movingWindow.length ≠ 0

/-- All calls keep the sum right. -/
def OpsOk : SSummWindow → List WindowOp → Prop
  | _, [] => True
  | w, op :: ops => OpOk w op ∧ ∀ w', windowStep w op = some w' → OpsOk w' ops

/-- A window at first. -/
def noWindow : SSummWindow := ⟨0, [], 0⟩

/-- What holds between calls. -/
structure WindowInv (w : SSummWindow) : Prop where
  /-- The sum is right. -/
  total : w.totalSumm = w.movingWindow.sum
  /-- Entries have 32 bits. -/
  entries : ∀ e ∈ w.movingWindow, e < 2 ^ 32
  /-- There are no more entries than an `int` can tell. -/
  room : w.movingWindow.length < 2 ^ 31

theorem sum_le {l : List ℕ} {high : ℕ} (h : ∀ e ∈ l, e ≤ high) : l.sum ≤ l.length * high := by
  induction l with
  | nil => simp
  | cons e l ih =>
    have hfirst := h e List.mem_cons_self
    have hrest := ih fun e he => h e (List.mem_cons_of_mem _ he)
    rw [List.sum_cons, List.length_cons, Nat.add_mul]
    omega

theorem le_sum {l : List ℕ} {low : ℕ} (h : ∀ e ∈ l, low ≤ e) : l.length * low ≤ l.sum := by
  induction l with
  | nil => simp
  | cons e l ih =>
    have hfirst := h e List.mem_cons_self
    have hrest := ih fun e he => h e (List.mem_cons_of_mem _ he)
    rw [List.sum_cons, List.length_cons, Nat.add_mul]
    omega

/-- The sum after an entry was replaced. -/
theorem sum_set {l : List ℕ} {i : ℕ} (h : i < l.length) (v : ℕ) : (l.set i v).sum + l.getD i 0 = l.sum + v := by
  induction l generalizing i with
  | nil => simp at h
  | cons e l ih =>
    cases i with
    | zero =>
      simp
      omega
    | succ i =>
      have hrest := ih (i := i) (by simpa using h)
      simp only [List.set_cons_succ, List.sum_cons, List.getD_cons_succ]
      omega

/-- The average lies between the entries if the sum is right. -/
theorem windowOk_iff (w : SSummWindow) : WindowOk w ↔ w.totalSumm = w.movingWindow.sum := by
  constructor
  · exact And.left
  · intro htotal
    refine ⟨htotal, ?_⟩
    intro low high hbounds hne
    have hpos : 0 < w.movingWindow.length := List.length_pos_of_ne_nil hne
    have hlow := le_sum fun e he => (hbounds e he).1
    have hhigh := sum_le fun e he => (hbounds e he).2
    have haverage : w.getAverage = w.movingWindow.sum / w.movingWindow.length := by
      simp [SSummWindow.getAverage, hne, htotal]
    rw [haverage]
    exact ⟨(Nat.le_div_iff_mul_le hpos).mpr (by rwa [Nat.mul_comm] at hlow), Nat.div_le_of_le_mul hhigh⟩

variable {w : SSummWindow}

theorem WindowInv.sum_lt (h : WindowInv w) : w.movingWindow.sum < 2 ^ 63 := by
  have hle : w.movingWindow.sum ≤ w.movingWindow.length * (2 ^ 32 - 1) := by
    apply sum_le
    intro e he
    have hlt := h.entries e he
    omega
  have hroom := h.room
  omega

theorem getD_le_sum (l : List ℕ) (i : ℕ) : l.getD i 0 ≤ l.sum := by
  by_cases h : i < l.length
  · have hset := sum_set h 0
    omega
  · simp [Nat.le_of_not_lt h]

theorem sum_init (w : SSummWindow) (Size Value : ℕ) : (w.init Size Value).movingWindow.sum =
    (w.movingWindow.take Size).sum + (Size - w.movingWindow.length) * Value := by
  simp [SSummWindow.init]

theorem windowInv_noWindow : WindowInv noWindow := by
  constructor <;> simp [noWindow]

/-- A call keeps the sum right if and only if it meets the condition. -/
theorem WindowInv.step (h : WindowInv w) (op : WindowOp) :
    (OpOk w op → ∃ w', windowStep w op = some w' ∧ WindowInv w') ∧
      (¬ OpOk w op → ∀ w', windowStep w op = some w' → ¬ WindowOk w') := by
  have htotal := h.total
  have hsum := h.sum_lt
  cases op with
  | init Size Value =>
    have hentries : ∀ e ∈ (w.init Size Value.toNat).movingWindow, e < 2 ^ 32 := by
      intro e he
      rcases List.mem_append.mp he with he | he
      · exact h.entries e (List.mem_of_mem_take he)
      · rw [List.eq_of_mem_replicate he]
        exact Value.isLt
    have hlength : (w.init Size Value.toNat).movingWindow.length < 2 ^ 31 := by
      have hsize := Size.isLt
      simp only [SSummWindow.init, List.length_append, List.length_take, List.length_replicate]
      omega
    have hsplit : (w.movingWindow.take Size).sum + (w.movingWindow.drop Size).sum =
        w.movingWindow.sum := by
      rw [← List.sum_append, List.take_append_drop]
    have hiff : OpOk w (.init Size Value) ↔
        (w.init Size Value.toNat).totalSumm = (w.init Size Value.toNat).movingWindow.sum := by
      rw [OpOk, sum_init]
      by_cases hzero : Value.toNat = 0
      · simp only [hzero, SSummWindow.init, if_true, Nat.mul_zero, ne_eq, not_true_eq_false, if_false]
        omega
      · simp [hzero, SSummWindow.init]
    refine ⟨fun hok => ⟨_, rfl, hiff.mp hok, hentries, hlength⟩, ?_⟩
    rintro hnot w' heq hwindow
    rw [windowStep, Option.some_inj] at heq
    subst heq
    exact hnot (hiff.mpr hwindow.1)
  | update Value =>
    have hvalue := Value.isLt
    by_cases hin : w.position < w.movingWindow.length
    · have hset := sum_set hin ((w.movingWindow.getD w.position 0 + Value.toNat) % 2 ^ 32)
      have hmod : (w.totalSumm + Value.toNat) % 2 ^ 64 = w.totalSumm + Value.toNat :=
        Nat.mod_eq_of_lt (by omega)
      have hiff : OpOk w (.update Value) ↔
          (update Value.toNat w).totalSumm = (update Value.toNat w).movingWindow.sum := by
        simp only [OpOk, update, hin, true_and, hmod]
        omega
      refine ⟨fun hok => ⟨_, by rw [windowStep, if_pos hin], hiff.mp hok, ?_, by simpa [update] using h.room⟩, ?_⟩
      · intro e he
        rcases List.mem_or_eq_of_mem_set he with he | rfl
        · exact h.entries e he
        · exact Nat.mod_lt _ (by norm_num)
      · rintro hnot w' heq hwindow
        rw [windowStep, if_pos hin, Option.some_inj] at heq
        subst heq
        exact hnot (hiff.mpr hwindow.1)
    · refine ⟨fun hok => absurd hok.1 hin, ?_⟩
      intro _ w' heq
      rw [windowStep, if_neg hin] at heq
      simp at heq
  | add Value =>
    have hvalue := Value.isLt
    by_cases hempty : w.movingWindow.length = 0
    · refine ⟨fun hok => absurd hempty hok, ?_⟩
      intro _ w' heq
      rw [windowStep, if_pos hempty] at heq
      simp at heq
    · refine ⟨fun _ => ⟨_, by rw [windowStep, if_neg hempty], ?_, ?_, by simpa [SSummWindow.add] using h.room⟩,
        fun hnot => absurd hempty hnot⟩
      · have hpos : (if w.position + 1 ≥ w.movingWindow.length then 0 else w.position + 1) <
            w.movingWindow.length := by
          split <;> omega
        have hset := sum_set hpos Value.toNat
        have hle := getD_le_sum w.movingWindow (if w.position + 1 ≥ w.movingWindow.length then 0 else w.position + 1)
        simp only [SSummWindow.add]
        omega
      · intro e he
        rcases List.mem_or_eq_of_mem_set he with he | rfl
        · exact h.entries e he
        · exact hvalue

/-- The windows of a run are as expected if and only if all calls meet the condition. -/
theorem WindowInv.windowsOk_iff (h : WindowInv w) (ops : List WindowOp) : WindowsOk w ops ↔ OpsOk w ops := by
  induction ops generalizing w with
  | nil => simp [WindowsOk, OpsOk]
  | cons op ops ih =>
    obtain ⟨hkeep, hbreak⟩ := h.step op
    by_cases hok : OpOk w op
    · obtain ⟨w', heq, hinv⟩ := hkeep hok
      have hwindow : WindowOk w' := (windowOk_iff w').mpr hinv.total
      simp [WindowsOk, OpsOk, heq, hok, hwindow, ih hinv]
    · have hbad := hbreak hok
      simp only [WindowsOk, OpsOk, hok, false_and, iff_false]
      cases heq : windowStep w op with
      | none => simp
      | some w' =>
        have hwrong := hbad w' heq
        simp [hwrong]

end Windows

section Samples

def getEstimatedRTT (s : SRouteStats) : ℕ := (s.uEstimatedRTT >>> 3).toNat

/-- What is expected of the statistics after some samples. -/
structure StatsOk (seen : List (BitVec 32)) (s : SRouteStats) : Prop where
  /-- The window of timeouts. -/
  window : WindowOk s.timeOut
  /-- The estimate is between the smallest and the largest sample. -/
  estimate : ∀ low high, (∀ x ∈ seen, low ≤ x.toNat ∧ x.toNat ≤ high) →
    low ≤ getEstimatedRTT s ∧ getEstimatedRTT s ≤ high

/-- The estimate and the deviation do not wrap when a sample is added to an estimate. -/
def NoWrap (s : SRouteStats) (x : BitVec 32) : Prop :=
  s.uEstimatedRTT ≠ 0 → ((s.addSample x).uEstimatedRTT.toNat : ℤ) =
        s.uEstimatedRTT.toNat + (x.toNat - s.uEstimatedRTT.toNat / 8) ∧
      ((s.addSample x).uRTTDeviation.toNat : ℤ) = s.uRTTDeviation.toNat +
        (|(x.toNat : ℤ) - s.uEstimatedRTT.toNat / 8| - s.uRTTDeviation.toNat / 8)

/-- The statistics of a run are as expected, after some samples. -/
def SamplesOk (seen : List (BitVec 32)) (s : SRouteStats) : List (BitVec 32) → Prop
  | [] => True
  | x :: samples =>
    NoWrap s x ∧ StatsOk (x :: seen) (s.addSample x) ∧ SamplesOk (x :: seen) (s.addSample x) samples

/-- The statistics after samples of zero. -/
structure Idle (s : SRouteStats) : Prop where
  /-- There is no estimate. -/
  estimate : s.uEstimatedRTT = 0
  /-- The sum of the window is zero. -/
  total : s.timeOut.totalSumm = 0
  /-- The entries of the window are zero. -/
  entries : ∀ e ∈ s.timeOut.movingWindow, e = 0

theorem sum_zeros {l : List ℕ} (h : ∀ e ∈ l, e = 0) : l.sum = 0 := List.sum_eq_zero h

variable {s : SRouteStats}

/-- A sample of zero is as expected, and after it there are ten entries. -/
theorem Idle.zero (h : Idle s) : Idle (s.addSample 0) ∧ 10 ≤ (s.addSample 0).timeOut.movingWindow.length ∧
      ∀ seen, (∀ x ∈ seen, x = 0) → StatsOk (0 :: seen) (s.addSample 0) := by
  have hadd : s.addSample 0 = { s with
      uEstimatedRTT := 0
      uRTTDeviation := 0
      timeOut := s.timeOut.init 10 0 } := by
    simp [SRouteStats.addSample, h.estimate]
  have hentries : ∀ e ∈ (s.timeOut.init 10 0).movingWindow, e = 0 := by
    intro e he
    rcases List.mem_append.mp he with he | he
    · exact h.entries e (List.mem_of_mem_take he)
    · exact List.eq_of_mem_replicate he
  have htotal : (s.timeOut.init 10 0).totalSumm = 0 := by simp [SSummWindow.init, h.total]
  rw [hadd]
  refine ⟨⟨rfl, htotal, hentries⟩, ?_, ?_⟩
  · simp only [SSummWindow.init, List.length_append, List.length_take, List.length_replicate]
    omega
  · intro seen hseen
    refine ⟨(windowOk_iff _).mpr (by rw [htotal, sum_zeros hentries]), ?_⟩
    intro low high hbounds
    have hzero := hbounds 0 List.mem_cons_self
    simpa [getEstimatedRTT] using hzero.1

/-- Samples of zero are as expected. -/
theorem Idle.samplesOk (h : Idle s) {seen samples : List (BitVec 32)}
    (hseen : ∀ x ∈ seen, x = 0) (hsamples : ∀ x ∈ samples, x = 0) : SamplesOk seen s samples := by
  induction samples generalizing s seen with
  | nil => trivial
  | cons x samples ih =>
    have hx := hsamples x List.mem_cons_self
    subst hx
    refine ⟨fun hne => absurd h.estimate hne, h.zero.2.2 seen hseen, ?_⟩
    apply ih h.zero.1
    · simpa using hseen
    · exact fun x hx => hsamples x (List.mem_cons_of_mem _ hx)

theorem twenty_ne_zero {n : ℕ} (hpos : n ≠ 0) (hsmall : n < 2 ^ 30) : 2 * n * 10 % 2 ^ 32 ≠ 0 := by
  intro h
  have hfour : 2 ^ 30 * 4 ∣ 5 * n * 4 := by
    have hdvd := Nat.dvd_of_mod_eq_zero h
    rwa [show 2 * n * 10 = 5 * n * 4 by omega] at hdvd
  have hfive : 2 ^ 30 ∣ 5 * n := Nat.dvd_of_mul_dvd_mul_right (by decide) hfour
  have hcoprime : Nat.Coprime (2 ^ 30) 5 := by decide
  have hle := Nat.le_of_dvd (Nat.pos_of_ne_zero hpos) (hcoprime.dvd_of_dvd_mul_left hfive)
  exact absurd hle (not_le.mpr hsmall)

/-- The first sample that is not zero is not as expected, unless it is too large for the window. -/
theorem Idle.first (h : Idle s) {seen : List (BitVec 32)}
    (hwindow : seen ≠ [] → 10 ≤ s.timeOut.movingWindow.length) {x : BitVec 32} (hx : x ≠ 0)
    (hsmall : x.toNat < 2 ^ 30) : ¬ StatsOk (x :: seen) (s.addSample x) := by
  intro hok
  have hpos : x.toNat ≠ 0 := fun hzero => hx (BitVec.eq_of_toNat_eq (by simpa using hzero))
  have hadd : s.addSample x = { s with
      uEstimatedRTT := x
      uRTTDeviation := 0
      timeOut := s.timeOut.init 10 (x <<< 1).toNat } := by
    simp [SRouteStats.addSample, h.estimate]
  rw [hadd] at hok
  by_cases hseen : seen = []
  · -- the estimate is an eighth of the only sample
    subst hseen
    have hbounds := hok.estimate x.toNat x.toNat (by simp)
    have heighth : getEstimatedRTT { s with
        uEstimatedRTT := x
        uRTTDeviation := 0
        timeOut := s.timeOut.init 10 (x <<< 1).toNat } = x.toNat / 8 := by
      simp [getEstimatedRTT, Nat.shiftRight_eq_div_pow]
    omega
  · -- the window has its entries of zero already
    have hlength := hwindow hseen
    have hvalue : (x <<< 1).toNat = 2 * x.toNat := by
      rw [BitVec.toNat_shiftLeft, Nat.shiftLeft_eq, Nat.mod_eq_of_lt (by omega)]
      omega
    have htotal := hok.window.1
    have hnone : 10 - s.timeOut.movingWindow.length = 0 := by omega
    have hsum : (s.timeOut.init 10 (x <<< 1).toNat).movingWindow.sum = 0 := by
      rw [sum_init, hnone, Nat.zero_mul, Nat.add_zero]
      exact sum_zeros fun e he => h.entries e (List.mem_of_mem_take he)
    rw [hsum] at htotal
    simp only [SSummWindow.init, hvalue] at htotal
    rw [if_pos (by omega)] at htotal
    exact twenty_ne_zero hpos hsmall htotal

/-- If all samples are as expected then they are zero, or one of them is very large. -/
theorem Idle.of_samplesOk (h : Idle s) {seen samples : List (BitVec 32)}
    (hseen : ∀ x ∈ seen, x = 0) (hwindow : seen ≠ [] → 10 ≤ s.timeOut.movingWindow.length)
    (hok : SamplesOk seen s samples) : (∀ x ∈ samples, x = 0) ∨ ∃ x ∈ samples, 2 ^ 30 ≤ x.toNat := by
  induction samples generalizing s seen with
  | nil => simp
  | cons x samples ih =>
    by_cases hx : x = 0
    · subst hx
      have hrest := ih h.zero.1 (show ∀ y ∈ 0 :: seen, y = 0 by simpa using hseen) (fun _ => h.zero.2.1) hok.2.2
      simpa using hrest
    · by_cases hsmall : x.toNat < 2 ^ 30
      · exact absurd hok.2.1 (h.first hwindow hx hsmall)
      · exact Or.inr ⟨x, List.mem_cons_self, by omega⟩

theorem idle_new : Idle SRouteStats.new := by constructor <;> simp [SRouteStats.new]

/-- Samples are dealt with as expected if all of them are zero, and otherwise not unless one takes more
than twelve days, and the windows of a run are as expected if and only if all calls meet the condition. -/
theorem samples_and_windows (samples : List (BitVec 32)) (ops : List WindowOp) :
    ((∀ x ∈ samples, x = 0) → SamplesOk [] SRouteStats.new samples) ∧ (SamplesOk [] SRouteStats.new samples →
        (∀ x ∈ samples, x = 0) ∨ ∃ x ∈ samples, 2 ^ 30 ≤ x.toNat) ∧
      (WindowsOk noWindow ops ↔ OpsOk noWindow ops) :=
  ⟨idle_new.samplesOk (by simp), idle_new.of_samplesOk (by simp) (by simp), windowInv_noWindow.windowsOk_iff ops⟩

/-- A first sample of eighty gives an estimate of ten, and a second one after a first one of zero gives a
sum of 1600 of ten entries that are zero. -/
theorem samples_wrong : getEstimatedRTT (SRouteStats.new.addSample 80) = 10 ∧ ¬ SamplesOk [] SRouteStats.new [80] ∧
      ((SRouteStats.new.addSample 0).addSample 80).timeOut.totalSumm = 1600 ∧
      ((SRouteStats.new.addSample 0).addSample 80).timeOut.movingWindow = List.replicate 10 0 ∧
      ¬ WindowsOk noWindow [.update 1] := by
  refine ⟨by decide, ?_, by decide, by decide, by simp [WindowsOk, windowStep, noWindow]⟩
  intro hok
  exact idle_new.first (by simp) (by decide) (by decide) hok.2.1

end Samples

end NeoLoader.RouteSamples
