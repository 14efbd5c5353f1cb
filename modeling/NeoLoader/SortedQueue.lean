import Mathlib.Data.List.Pairwise
import Mathlib.Data.List.Perm.Basic
import Mathlib.Data.List.Sublists
import Mathlib.Tactic.Linarith

/-!
# Queues sorted by a key

Requests are put into a queue and executed from its front, which has the least key, and the latest of the
requests with that key. Two requests can trade places if neither changes what the other one does. The
outcome is that of the order in which the requests came if those that cannot trade places came with
increasing keys.
-/

namespace NeoLoader.SortedQueue

variable {S α ρ : Type*} (step : S → α → ρ × S) (key : α → ℕ)

/-- Requests are executed in their order. -/
def run : S → List α → List (α × ρ) × S
  | s, [] => ([], s)
  | s, a :: l => ((a, (step s a).1) :: (run (step s a).2 l).1, (run (step s a).2 l).2)

/-- The state and the result of each request are the same. -/
def SameOutcome (r r' : List (α × ρ) × S) : Prop := r.1.Perm r'.1 ∧ r.2 = r'.2

/-- Neither of two requests changes what the other one does. -/
def Independent (Inv : S → Prop) (a b : α) : Prop :=
  ∀ s, Inv s → (step (step s a).2 b).2 = (step (step s b).2 a).2 ∧
    (step (step s a).2 b).1 = (step s b).1 ∧ (step (step s b).2 a).1 = (step s a).1

/-- A request is put before those with the same key. -/
def insert (a : α) (queue : List α) : List α :=
  queue.takeWhile (key · < key a) ++ a :: queue.dropWhile (key · < key a)

/-- A request comes, or the first one in the queue is executed. -/
inductive Event (α : Type*) where
  /-- A request comes. -/
  | submit (a : α)
  /-- The first one is executed. -/
  | execute

/-- The requests that wait, the results so far and the state. -/
structure Queue (S α ρ : Type*) where
  /-- The requests that wait. -/
  queue : List α
  /-- The results so far. -/
  results : List (α × ρ)
  /-- The state. -/
  state : S

/-- What an event does. -/
def onEvent (q : Queue S α ρ) : Event α → Queue S α ρ
  | .submit a => { q with queue := insert key a q.queue }
  | .execute =>
    match q.queue with
    | [] => q
    | a :: queue => ⟨queue, q.results ++ [(a, (step q.state a).1)], (step q.state a).2⟩

/-- What some events do. -/
def onEvents (q : Queue S α ρ) (events : List (Event α)) : Queue S α ρ :=
  events.foldl (onEvent step key) q

/-- All that wait are executed. -/
def drain (q : Queue S α ρ) : Queue S α ρ :=
  ⟨[], q.results ++ (run step q.state q.queue).1, (run step q.state q.queue).2⟩

/-- The requests that come, in their order. -/
def submitted : List (Event α) → List α
  | [] => []
  | .submit a :: events => a :: submitted events
  | .execute :: events => submitted events

section Outcomes

variable {step}

theorem SameOutcome.trans {r r' r'' : List (α × ρ) × S} (h : SameOutcome r r')
    (h' : SameOutcome r' r'') : SameOutcome r r'' :=
  ⟨h.1.trans h'.1, h.2.trans h'.2⟩

theorem Independent.symm {Inv : S → Prop} {a b : α} (h : Independent step Inv a b) : Independent step Inv b a := by
  intro s hs
  obtain ⟨hstate, hresult, hresult'⟩ := h s hs
  exact ⟨hstate.symm, hresult', hresult⟩

theorem run_append (s : S) (l l' : List α) :
    run step s (l ++ l') = ((run step s l).1 ++ (run step (run step s l).2 l').1,
      (run step (run step s l).2 l').2) := by
  induction l generalizing s with
  | nil => simp [run]
  | cons a l ih => simp [run, ih]

/-- A request can be moved before those that it is independent of. -/
theorem run_move {Inv : S → Prop} (hstep : ∀ s a, Inv s → Inv (step s a).2) {a : α} {l : List α}
    (h : ∀ b ∈ l, Independent step Inv b a) (l' : List α) {s : S} (hs : Inv s) :
    SameOutcome (run step s (l ++ a :: l')) (run step s (a :: (l ++ l'))) := by
  induction l generalizing s with
  | nil => exact ⟨List.Perm.refl _, rfl⟩
  | cons b l ih =>
    obtain ⟨hstate, hresult, hresult'⟩ := h b List.mem_cons_self s hs
    obtain ⟨hperm, hlast⟩ := ih (fun c hc => h c (List.mem_cons_of_mem _ hc)) (hstep s b hs)
    constructor
    · have hswap : ((b, (step s b).1) :: (run step (step s b).2 (a :: (l ++ l'))).1).Perm
          (run step s (a :: b :: (l ++ l'))).1 := by
        simp only [run, hstate, hresult, hresult']
        exact List.Perm.swap _ _ _
      exact (hperm.cons _).trans hswap
    · have hswap : (run step (step s b).2 (a :: (l ++ l'))).2 = (run step s (a :: b :: (l ++ l'))).2 := by
        simp only [run, hstate]
      exact hlast.trans hswap

end Outcomes

section Queues

/-- Keys never decrease. -/
def Sorted (queue : List α) : Prop := queue.Pairwise fun a b => key a ≤ key b

theorem insert_perm (a : α) (queue : List α) : (insert key a queue).Perm (queue ++ [a]) := by
  have hparts := (queue.takeWhile_append_dropWhile (p := (key · < key a))).symm
  have hlast : (insert key a queue).Perm (a :: queue) := by
    conv_rhs => rw [hparts]
    exact List.perm_middle
  exact hlast.trans (List.perm_append_singleton a queue).symm

/-- Keys do not decrease after a request is put into a queue. -/
theorem Sorted.insert (a : α) {queue : List α} (h : Sorted key queue) :
    Sorted key (SortedQueue.insert key a queue) := by
  induction queue with
  | nil => simp [Sorted, SortedQueue.insert]
  | cons b queue ih =>
    have hb := List.pairwise_cons.mp h
    by_cases hlt : key b < key a
    · have hinsert : SortedQueue.insert key a (b :: queue) = b :: SortedQueue.insert key a queue := by
        simp [SortedQueue.insert, hlt]
      rw [hinsert]
      refine List.pairwise_cons.mpr ⟨fun c hc => ?_, ih hb.2⟩
      have hmem := (insert_perm key a queue).mem_iff.mp hc
      rcases List.mem_append.mp hmem with hc | hc
      · exact hb.1 c hc
      · simpa [List.mem_singleton.mp hc] using hlt.le
    · have hinsert : SortedQueue.insert key a (b :: queue) = a :: b :: queue := by
        simp [SortedQueue.insert, hlt]
      rw [hinsert]
      refine List.pairwise_cons.mpr ⟨fun c hc => ?_, h⟩
      rcases List.mem_cons.mp hc with rfl | hc
      · simpa using hlt
      · exact (not_lt.mp hlt).trans (hb.1 c hc)

/-- Requests that cannot trade places come with increasing keys. -/
def InOrder (Inv : S → Prop) (requests : List α) : Prop :=
  requests.Pairwise fun a b => Independent step Inv a b ∨ key a < key b

/-- What a queue has done and what it still has to do give the outcome of the requests in their order. -/
structure Behind (Inv : S → Prop) (s₀ : S) (requests : List α) (q : Queue S α ρ) : Prop where
  /-- The invariant of the state. -/
  inv : Inv q.state
  /-- Keys in the queue never decrease. -/
  sorted : Sorted key q.queue
  /-- Those that wait, in the order in which they came. -/
  waiting : ∃ l : List α, l.Sublist requests ∧ l.Perm q.queue ∧
    SameOutcome (run step s₀ requests) (q.results ++ (run step q.state l).1, (run step q.state l).2)

variable {step key} {Inv : S → Prop} {s₀ : S}

theorem Behind.start (hs : Inv s₀) : Behind step key Inv s₀ [] ⟨[], [], s₀⟩ :=
  ⟨hs, List.Pairwise.nil, [], List.Sublist.refl _, List.Perm.refl _, List.Perm.refl _, rfl⟩

variable {requests : List α} {q : Queue S α ρ}

theorem Behind.submit (h : Behind step key Inv s₀ requests q)
    (a : α) : Behind step key Inv s₀ (requests ++ [a]) (onEvent step key q (Event.submit a)) := by
  obtain ⟨l, hsub, hperm, hresults, hstate⟩ := h.waiting
  refine ⟨h.inv, h.sorted.insert key a, l ++ [a], hsub.append (List.Sublist.refl _), ?_, ?_, ?_⟩
  · exact (hperm.append_right [a]).trans (insert_perm key a q.queue).symm
  · have hlast : (run step s₀ requests).2 = (run step q.state l).2 := hstate
    simp only [onEvent, run_append, hlast, ← List.append_assoc]
    exact hresults.append_right _
  · simp only [onEvent, run_append, hstate]

/-- The first request in the queue is executed. -/
theorem Behind.execute (hstep : ∀ s a, Inv s → Inv (step s a).2)
    (horder : InOrder step key Inv requests) (h : Behind step key Inv s₀ requests q) :
    Behind step key Inv s₀ requests (onEvent step key q Event.execute) := by
  cases hqueue : q.queue with
  | nil => simpa [onEvent, hqueue] using h
  | cons a queue =>
    obtain ⟨l, hsub, hperm, hsame⟩ := h.waiting
    have hsorted := h.sorted
    rw [hqueue] at hsorted hperm
    obtain ⟨before, behind, rfl⟩ := List.mem_iff_append.mp (hperm.mem_iff.mpr List.mem_cons_self)
    -- those that came before the first one in the queue have no smaller keys
    have hfree : ∀ b ∈ before, Independent step Inv b a := by
      intro b hb
      have hpair := (List.pairwise_append.mp (horder.sublist hsub)).2.2 b hb a List.mem_cons_self
      have hmem : b ∈ a :: queue := hperm.mem_iff.mp (List.mem_append_left _ hb)
      have hle : key a ≤ key b := by
        rcases List.mem_cons.mp hmem with rfl | hmem
        · exact le_rfl
        · exact (List.pairwise_cons.mp hsorted).1 b hmem
      exact hpair.resolve_right hle.not_gt
    have hmoved := run_move hstep hfree behind h.inv
    have hrest : (before ++ behind).Perm queue :=
      List.Perm.cons_inv (List.perm_middle.symm.trans hperm)
    have hfewer : (before ++ behind).Sublist (before ++ a :: behind) :=
      (List.Sublist.refl before).append (List.sublist_cons_self a behind)
    have hdone : onEvent step key q Event.execute =
        ⟨queue, q.results ++ [(a, (step q.state a).1)], (step q.state a).2⟩ := by
      simp [onEvent, hqueue]
    rw [hdone]
    refine ⟨hstep _ _ h.inv, (List.pairwise_cons.mp hsorted).2, before ++ behind, hfewer.trans hsub,
      hrest, hsame.trans ⟨?_, hmoved.2⟩⟩
    simpa [run] using hmoved.1.append_left q.results

/-- Events keep the outcome. -/
theorem Behind.onEvents (hstep : ∀ s a, Inv s → Inv (step s a).2) (h : Behind step key Inv s₀ requests q)
    (events : List (Event α)) (horder : InOrder step key Inv (requests ++ submitted events)) :
    Behind step key Inv s₀ (requests ++ submitted events) (SortedQueue.onEvents step key q events) := by
  induction events generalizing requests q with
  | nil => simpa [submitted, SortedQueue.onEvents] using h
  | cons event events ih =>
    cases event with
    | submit a =>
      have hmore := ih (h.submit a) (by simpa [submitted] using horder)
      simpa [submitted, SortedQueue.onEvents] using hmore
    | execute =>
      have hsofar : InOrder step key Inv requests := (List.pairwise_append.mp horder).1
      exact ih (h.execute hstep hsofar) horder

theorem onEvents_execute (q : Queue S α ρ) :
    onEvents step key q (List.replicate q.queue.length Event.execute) = drain step q := by
  obtain ⟨queue, results, state⟩ := q
  induction queue generalizing results state with
  | nil => simp [onEvents, drain, run]
  | cons a queue ih =>
    have hrest := ih (results ++ [(a, (step state a).1)]) (step state a).2
    simpa [onEvents, onEvent, drain, run, List.replicate_succ] using hrest

theorem submitted_execute (events : List (Event α)) (n : ℕ) :
    submitted (events ++ List.replicate n Event.execute) = submitted events := by
  induction events with
  | nil =>
    induction n with
    | zero => rfl
    | succ n ih => simpa [submitted, List.replicate_succ] using ih
  | cons event events ih => cases event <;> simpa [submitted] using ih

/-- When all are executed, the outcome is that of the requests in the order in which they came. -/
theorem sameOutcome_of_inOrder (hstep : ∀ s a, Inv s → Inv (step s a).2) (hs : Inv s₀)
    {events : List (Event α)} (horder : InOrder step key Inv (submitted events)) :
    SameOutcome (run step s₀ (submitted events)) ((drain step (onEvents step key ⟨[], [], s₀⟩ events)).results,
        (drain step (onEvents step key ⟨[], [], s₀⟩ events)).state) := by
  have hdrain : onEvents step key (onEvents step key ⟨[], [], s₀⟩ events) (List.replicate _ Event.execute) =
      drain step (onEvents step key ⟨[], [], s₀⟩ events) := onEvents_execute _
  generalize hn : (onEvents step key ⟨[], [], s₀⟩ events).queue.length = n at hdrain
  have hall : onEvents step key ⟨[], [], s₀⟩ (events ++ List.replicate n Event.execute) =
      drain step (onEvents step key ⟨[], [], s₀⟩ events) := by
    rw [← hdrain]
    simp [onEvents]
  have hbehind := (Behind.start hs).onEvents hstep (events ++ List.replicate n Event.execute)
    (by simpa [submitted_execute] using horder)
  rw [hall, submitted_execute] at hbehind
  obtain ⟨l, -, hperm, hsame⟩ := hbehind.waiting
  simpa [hperm.eq_nil, run] using hsame

end Queues

end NeoLoader.SortedQueue
