import NeoLoader.KeyMapTotals

/-!
# Jobs of the interface

A job manager sends the requests of its jobs, at most ten of them at a time, and finishes a job with the response that
has the number of its request. The numbers start again each time the manager is suspended.
-/

namespace NeoLoader.JobManager

open KeyMap

def CMD_WND_SIZE : ℕ := 10

/-- The number of a suspended manager, `-1` as a `uint64`. -/
def UID_MAX : ℕ := 2 ^ 64 - 1

/-- A `CJobManager`, with all that was sent and finished. Jobs are numbered in the order they are scheduled. -/
structure CJobManager where
  /-- `m_UID_Counter`. -/
  uidCounter : ℕ
  queuedJobs : List ℕ
  pendingJobs : OrderedMap ℕ ℕ
  /-- How many jobs there are. -/
  scheduled : ℕ
  /-- `m_UID` of each job. -/
  uid : ℕ → ℕ
  /-- The requests, with their numbers and jobs. -/
  sent : List (ℕ × ℕ)
  /-- The calls of `Finish`, with the job whose response was the reason if it is a success. -/
  finished : List (ℕ × Option ℕ)

namespace CJobManager

/-- A new manager. -/
def new : CJobManager where
  uidCounter := UID_MAX
  queuedJobs := []
  pendingJobs := OrderedMap.empty
  scheduled := 0
  uid := fun _ => 0
  sent := []
  finished := []

/-- `Finish` of a job. -/
def finish (s : CJobManager) (job : ℕ) (request : Option ℕ) : CJobManager :=
  { s with finished := s.finished ++ [(job, request)] }

/-- The first queued job gets a number and is sent. -/
def send (s : CJobManager) (job : ℕ) (queuedJobs : List ℕ) : CJobManager :=
  let uid := (s.uidCounter + 1) % 2 ^ 64
  { s with
    uidCounter := uid
    queuedJobs
    pendingJobs := s.pendingJobs.insert uid job
    uid := Function.update s.uid job uid
    sent := s.sent ++ [(uid, job)] }

def scheduleNextJob (s : CJobManager) : CJobManager :=
  if CMD_WND_SIZE ≤ s.pendingJobs.size then s
  else
    match s.queuedJobs with
    | [] => s
    | job :: queuedJobs => if s.uidCounter = UID_MAX then s else s.send job queuedJobs

def queueNextJob (s : CJobManager) (job : ℕ) : CJobManager :=
  scheduleNextJob { s with queuedJobs := s.queuedJobs ++ [job] }

def unQueueNextJob (s : CJobManager) (job : ℕ) : CJobManager :=
  finish (if s.uid job ≠ 0 then { s with pendingJobs := s.pendingJobs.erase (s.uid job) }
    else { s with queuedJobs := s.queuedJobs.erase job }) job none

def suspend (s : CJobManager) (bSet : Bool) : CJobManager :=
  if bSet then
    { s with
      finished := s.finished ++ s.pendingJobs.entries.map fun e => (e.2, none)
      pendingJobs := OrderedMap.empty
      uidCounter := UID_MAX }
  else if s.uidCounter = UID_MAX then scheduleNextJob { s with uidCounter := 0 }
  else s

/-- `DispatchResponse`, with the job whose request the response is for. -/
def dispatchResponse (s : CJobManager) (uid request : ℕ) : CJobManager :=
  scheduleNextJob (match s.pendingJobs.get uid with
    | some job => finish { s with pendingJobs := s.pendingJobs.erase uid } job (some request)
    | none => s)

end CJobManager

/-- What happens to a manager. -/
inductive Op where
  /-- It is suspended or resumed. -/
  | suspend (bSet : Bool)
  /-- A new job is scheduled. -/
  | schedule
  /-- A job is unscheduled. -/
  | unschedule (job : ℕ)
  /-- A response to a request comes in, whenever this was sent. -/
  | respond (request : ℕ)

open CJobManager

/-- One step. -/
def step (s : CJobManager) : Op → CJobManager
  | .suspend bSet => s.suspend bSet
  | .schedule => queueNextJob { s with scheduled := s.scheduled + 1 } s.scheduled
  | .unschedule job => s.unQueueNextJob job
  | .respond request =>
    match s.sent[request]? with
    | some (uid, job) => s.dispatchResponse uid job
    | none => s

/-- The jobs are finished as they should be, and no job waits without need. -/
structure Right (s : CJobManager) : Prop where
  /-- No job is finished twice. -/
  once : (s.finished.map Prod.fst).Nodup
  /-- A success is that of the job's own request. -/
  own : ∀ job request, (job, some request) ∈ s.finished → request = job
  /-- There are at most ten requests at a time. -/
  window : s.pendingJobs.size ≤ CMD_WND_SIZE
  /-- A manager that is not suspended sends all that it can. -/
  busy : s.uidCounter ≠ UID_MAX → s.pendingJobs.size = CMD_WND_SIZE ∨ s.queuedJobs = []

/-- The manager has a number for one more request, or sends none. -/
def Fits (s : CJobManager) : Prop := s.uidCounter = UID_MAX ∨ s.uidCounter + 1 < UID_MAX

/-- A step does what it should: at most one job waits when the manager is resumed, no job is unscheduled that is neither
queued, nor pending while none is queued, and no other job is pending under the number of a response. -/
def Meets (s : CJobManager) : Op → Prop
  | .suspend bSet => bSet = false → s.uidCounter = UID_MAX → s.queuedJobs.length ≤ 1
  | .schedule => Fits s
  | .unschedule job => job ∈ s.queuedJobs ∨ (∃ uid, (uid, job) ∈ s.pendingJobs.entries) ∧ s.queuedJobs = []
  | .respond request => Fits s ∧ ∀ e ∈ s.sent[request]?, ∀ job ∈ s.pendingJobs.get e.1, e.2 = job

/-- All steps of a run do what they should. -/
def AllMeet (s : CJobManager) : List Op → Prop
  | [] => True
  | op :: ops => Meets s op ∧ AllMeet (step s op) ops

/-- A job that was scheduled and is not finished. -/
def Open (s : CJobManager) (job : ℕ) : Prop := job < s.scheduled ∧ ∀ f ∈ s.finished, f.1 ≠ job

/-- What holds of a manager, whether it sends all that it can or not. -/
structure Consistent (s : CJobManager) : Prop where
  /-- No job is finished twice. -/
  once : (s.finished.map Prod.fst).Nodup
  /-- A success is that of the job's own request. -/
  own : ∀ job request, (job, some request) ∈ s.finished → request = job
  /-- There are at most ten requests at a time. -/
  window : s.pendingJobs.size ≤ CMD_WND_SIZE
  /-- The numbers in use are those of the pending jobs. -/
  pending : ∀ uid job, (uid, job) ∈ s.pendingJobs.entries → uid ≠ 0 ∧ uid ≤ s.uidCounter ∧ s.uid job = uid ∧ Open s job
  /-- A suspended manager has no requests. -/
  suspended : s.uidCounter = UID_MAX → s.pendingJobs.entries = []
  /-- No job is queued twice. -/
  nodup : s.queuedJobs.Nodup
  /-- The queued jobs have no number. -/
  queued : ∀ job ∈ s.queuedJobs, s.uid job = 0 ∧ Open s job
  /-- The finished jobs were scheduled. -/
  finished : ∀ f ∈ s.finished, f.1 < s.scheduled
  /-- A job that comes has no number. -/
  fresh : ∀ job, s.scheduled ≤ job → s.uid job = 0

variable {s : CJobManager}

section

variable (h : Consistent s)

include h

/-- The first queued job is sent. -/
theorem Consistent.send {job : ℕ} {queuedJobs : List ℕ} (hqueue : s.queuedJobs = job :: queuedJobs)
    (hroom : s.pendingJobs.size < CMD_WND_SIZE) (hfits : s.uidCounter + 1 < UID_MAX) :
    Consistent (s.send job queuedJobs) ∧ (s.send job queuedJobs).pendingJobs.size = s.pendingJobs.size + 1 := by
  have hmod : (s.uidCounter + 1) % 2 ^ 64 = s.uidCounter + 1 := Nat.mod_eq_of_lt (by unfold UID_MAX at hfits; omega)
  have hnodup := List.nodup_cons.mp (hqueue ▸ h.nodup)
  obtain ⟨hzero, hopen⟩ := h.queued job (by simp [hqueue])
  have hnew : ∀ e ∈ s.pendingJobs.entries, e.1 ≠ s.uidCounter + 1 := fun e he => by
    have hle := (h.pending e.1 e.2 he).2.1
    omega
  have hperm := OrderedMap.entries_insert_perm job hnew
  have hsend : s.send job queuedJobs =
      { s with
        uidCounter := s.uidCounter + 1
        queuedJobs
        pendingJobs := s.pendingJobs.insert (s.uidCounter + 1) job
        uid := Function.update s.uid job (s.uidCounter + 1)
        sent := s.sent ++ [(s.uidCounter + 1, job)] } := by
    simp only [CJobManager.send, hmod]
  have hsize : (s.pendingJobs.insert (s.uidCounter + 1) job).size = s.pendingJobs.size + 1 := by
    simp [OrderedMap.size, hperm.length_eq]
  rw [hsend]
  refine ⟨⟨h.once, h.own, ?_, fun uid job' hmem => ?_, ?_, hnodup.2, fun job' hmem => ?_, h.finished,
    fun job' hold => ?_⟩, hsize⟩
  · simp only
    omega
  · rcases List.mem_cons.mp (hperm.mem_iff.mp hmem) with heq | hmem
    · obtain ⟨rfl, rfl⟩ := Prod.mk.inj heq
      exact ⟨by omega, le_rfl, by simp, hopen⟩
    · obtain ⟨hne, hle, huid, hold⟩ := h.pending uid job' hmem
      have hother : job' ≠ job := fun heq => hne (by rw [← huid, heq, hzero])
      exact ⟨hne, by simp only; omega, by simp [hother, huid], hold⟩
  · simp only
    omega
  · obtain ⟨hzero', hopen'⟩ := h.queued job' (by simpa [hqueue] using Or.inr hmem)
    have hother : job' ≠ job := fun heq => hnodup.1 (heq ▸ hmem)
    exact ⟨by simp [hother, hzero'], hopen'⟩
  · have hother : job' ≠ job := by
      rintro rfl
      exact absurd hopen.1 (not_lt.mpr hold)
    simp [hother, h.fresh job' hold]

/-- A manager sends one job if it can. -/
theorem Consistent.scheduleNextJob (hfits : Fits s)
    (hbusy : s.uidCounter = UID_MAX ∨ s.queuedJobs.length ≤ 1 ∨ CMD_WND_SIZE ≤ s.pendingJobs.size + 1) :
    Consistent s.scheduleNextJob ∧ Right s.scheduleNextJob := by
  have hright : ∀ {t : CJobManager}, Consistent t →
      (t.uidCounter ≠ UID_MAX → t.pendingJobs.size = CMD_WND_SIZE ∨ t.queuedJobs = []) → Consistent t ∧ Right t :=
    fun ht hbusy => ⟨ht, ht.once, ht.own, ht.window, hbusy⟩
  unfold CJobManager.scheduleNextJob
  by_cases hfull : CMD_WND_SIZE ≤ s.pendingJobs.size
  · rw [if_pos hfull]
    exact hright h fun _ => Or.inl (le_antisymm h.window hfull)
  · rw [if_neg hfull]
    cases hqueue : s.queuedJobs with
    | nil => exact hright h fun _ => Or.inr hqueue
    | cons job queuedJobs =>
      dsimp only
      by_cases hsuspended : s.uidCounter = UID_MAX
      · rw [if_pos hsuspended]
        exact hright h fun hne => absurd hsuspended hne
      · obtain ⟨hnext, hsize⟩ := h.send hqueue (not_le.mp hfull) (hfits.resolve_left hsuspended)
        rw [if_neg hsuspended]
        refine hright hnext fun _ => ?_
        rcases hbusy with hmax | hone | hnine
        · exact absurd hmax hsuspended
        · have hnil : queuedJobs = [] := by simpa [hqueue] using hone
          exact Or.inr hnil
        · exact Or.inl (le_antisymm hnext.window (by omega))

/-- A job is finished that was open, and is no longer waiting. -/
theorem Consistent.finish {job : ℕ} (hopen : Open s job) (request : Option ℕ)
    (hown : ∀ r ∈ request, r = job) (hpending : ∀ uid, (uid, job) ∉ s.pendingJobs.entries)
    (hqueued : job ∉ s.queuedJobs) : Consistent (s.finish job request) := by
  have hkeep : ∀ job', job' ≠ job → Open s job' → Open (s.finish job request) job' := fun job' hne hold => by
    refine ⟨hold.1, fun f hf => ?_⟩
    rcases List.mem_append.mp hf with hf | hf
    · exact hold.2 f hf
    · rw [List.mem_singleton.mp hf]
      exact hne.symm
  constructor
  · have hnew : job ∉ s.finished.map Prod.fst := fun hmem => by
      obtain ⟨f, hf, heq⟩ := List.mem_map.mp hmem
      exact hopen.2 f hf heq
    simpa [CJobManager.finish, List.nodup_append, h.once] using fun a x ha => fun heq => hnew (by
      rw [← heq]
      exact List.mem_map_of_mem ha)
  · intro job' r hmem
    rcases List.mem_append.mp hmem with hmem | hmem
    · exact h.own job' r hmem
    · obtain ⟨rfl, rfl⟩ := Prod.mk.inj (List.mem_singleton.mp hmem)
      exact hown r rfl
  · exact h.window
  · intro uid job' hmem
    obtain ⟨hne, hle, huid, hold⟩ := h.pending uid job' hmem
    exact ⟨hne, hle, huid, hkeep job' (fun heq => hpending uid (heq ▸ hmem)) hold⟩
  · exact h.suspended
  · exact h.nodup
  · intro job' hmem
    obtain ⟨hzero, hold⟩ := h.queued job' hmem
    exact ⟨hzero, hkeep job' (fun heq => hqueued (heq ▸ hmem)) hold⟩
  · intro f hf
    rcases List.mem_append.mp hf with hf | hf
    · exact h.finished f hf
    · rw [List.mem_singleton.mp hf]
      exact hopen.1
  · exact h.fresh

/-- A pending job is taken out. -/
theorem Consistent.erase {uid job : ℕ} (hmem : (uid, job) ∈ s.pendingJobs.entries) :
    Consistent { s with pendingJobs := s.pendingJobs.erase uid } ∧
      (s.pendingJobs.erase uid).size + 1 = s.pendingJobs.size ∧
      ∀ uid', (uid', job) ∉ (s.pendingJobs.erase uid).entries := by
  have hperm := OrderedMap.entries_erase_perm hmem
  have hsize : (s.pendingJobs.erase uid).size + 1 = s.pendingJobs.size := by
    simp [OrderedMap.size, hperm.length_eq]
  have hsub : ∀ e ∈ (s.pendingJobs.erase uid).entries, e ∈ s.pendingJobs.entries ∧ e.1 ≠ uid := fun e he => by
    simpa [OrderedMap.erase, OrderedMap.filter] using he
  refine ⟨⟨h.once, h.own, ?_, fun uid' job' he => h.pending uid' job' (hsub _ he).1, ?_, h.nodup, h.queued, h.finished,
    h.fresh⟩, hsize, fun uid' he => ?_⟩
  · have hwindow := h.window
    simp only
    omega
  · intro hmax
    rw [h.suspended hmax] at hmem
    exact absurd hmem List.not_mem_nil
  · have hsame := (h.pending uid' job (hsub _ he).1).2.2.1
    rw [(h.pending uid job hmem).2.2.1] at hsame
    exact (hsub _ he).2 hsame.symm

/-- A job is queued. -/
theorem Consistent.queue :
    Consistent { s with scheduled := s.scheduled + 1, queuedJobs := s.queuedJobs ++ [s.scheduled] } := by
  have hkeep : ∀ job, Open s job → Open { s with scheduled := s.scheduled + 1 } job :=
    fun job hold => ⟨hold.1.trans (Nat.lt_succ_self _), hold.2⟩
  refine ⟨h.once, h.own, h.window, fun uid job hmem => ?_, h.suspended, ?_, fun job hmem => ?_,
    fun f hf => (h.finished f hf).trans (Nat.lt_succ_self _), fun job hold => h.fresh job (by simp only at hold; omega)⟩
  · obtain ⟨hne, hle, huid, hold⟩ := h.pending uid job hmem
    exact ⟨hne, hle, huid, hkeep job hold⟩
  · have hnew : s.scheduled ∉ s.queuedJobs := fun hmem => absurd (h.queued _ hmem).2.1 (lt_irrefl _)
    exact List.nodup_append.mpr ⟨h.nodup, List.nodup_singleton _, fun a ha b hb heq => hnew (by
      rw [← List.mem_singleton.mp hb, ← heq]
      exact ha)⟩
  · rcases List.mem_append.mp hmem with hmem | hmem
    · obtain ⟨hzero, hold⟩ := h.queued job hmem
      exact ⟨hzero, hkeep job hold⟩
    · rw [List.mem_singleton.mp hmem]
      exact ⟨h.fresh _ le_rfl, Nat.lt_succ_self _, fun f hf => (h.finished f hf).ne⟩

/-- All pending jobs are finished. -/
theorem Consistent.suspend : Consistent (s.suspend true) := by
  have hentry : ∀ e ∈ s.pendingJobs.entries, Open s e.2 := fun e he => (h.pending e.1 e.2 he).2.2.2
  simp only [CJobManager.suspend, if_true]
  refine ⟨?_, ?_, by simp [OrderedMap.size, OrderedMap.empty], by simp [OrderedMap.empty], by simp [OrderedMap.empty],
    h.nodup, fun job hmem => ?_, fun f hf => ?_, h.fresh⟩
  · have hjobs : (s.pendingJobs.entries.map Prod.snd).Nodup := by
      refine List.Nodup.map_on (fun e he e' he' heq => ?_) (List.Nodup.of_map _ s.pendingJobs.nodup_keys)
      have huid := (h.pending e.1 e.2 he).2.2.1
      have huid' := (h.pending e'.1 e'.2 he').2.2.1
      exact Prod.ext (by rw [← huid, ← huid', heq]) heq
    rw [List.map_append, List.map_map]
    refine List.nodup_append.mpr ⟨h.once, hjobs, fun a ha b hb heq => ?_⟩
    obtain ⟨f, hf, rfl⟩ := List.mem_map.mp ha
    obtain ⟨e, he, rfl⟩ := List.mem_map.mp hb
    exact (hentry e he).2 f hf heq
  · intro job request hmem
    rcases List.mem_append.mp hmem with hmem | hmem
    · exact h.own job request hmem
    · simp at hmem
  · obtain ⟨hzero, hold⟩ := h.queued job hmem
    refine ⟨hzero, hold.1, fun f hf => ?_⟩
    rcases List.mem_append.mp hf with hf | hf
    · exact hold.2 f hf
    · obtain ⟨e, he, rfl⟩ := List.mem_map.mp hf
      rintro rfl
      obtain ⟨hne, -, huid, -⟩ := h.pending e.1 e.2 he
      exact hne (huid.symm.trans hzero)
  · rcases List.mem_append.mp hf with hf | hf
    · exact h.finished f hf
    · obtain ⟨e, he, rfl⟩ := List.mem_map.mp hf
      exact (hentry e he).1

/-- A step that does what it should keeps all right. -/
theorem Consistent.step (hright : Right s) {op : Op} (hmeets : Meets s op) :
    Consistent (step s op) ∧ Right (step s op) := by
  cases op with
  | suspend bSet =>
    cases bSet with
    | true =>
      have hnext := h.suspend
      exact ⟨hnext, hnext.once, hnext.own, hnext.window, fun hne => absurd rfl hne⟩
    | false =>
      simp only [JobManager.step, CJobManager.suspend]
      by_cases hmax : s.uidCounter = UID_MAX
      · have hone : s.queuedJobs.length ≤ 1 := hmeets rfl hmax
        have hnil := h.suspended hmax
        have hzero : Consistent { s with uidCounter := 0 } :=
          ⟨h.once, h.own, h.window, by simp [hnil], fun _ => hnil, h.nodup, h.queued, h.finished, h.fresh⟩
        simp only [hmax, if_true, Bool.false_eq_true, if_false]
        exact hzero.scheduleNextJob (Or.inr (by simp [UID_MAX])) (Or.inr (Or.inl hone))
      · simp only [hmax, if_false, Bool.false_eq_true]
        exact ⟨h, hright⟩
  | schedule =>
    refine h.queue.scheduleNextJob hmeets ?_
    by_cases hmax : s.uidCounter = UID_MAX
    · exact Or.inl hmax
    · rcases hright.busy hmax with hten | hnil
      · exact Or.inr (Or.inr (by simp [hten]))
      · exact Or.inr (Or.inl (by simp [hnil]))
  | unschedule job =>
    simp only [JobManager.step, CJobManager.unQueueNextJob]
    rcases hmeets with hqueued | ⟨⟨uid, hpending⟩, hnil⟩
    · obtain ⟨hzero, hopen⟩ := h.queued job hqueued
      have herase : Consistent { s with queuedJobs := s.queuedJobs.erase job } :=
        ⟨h.once, h.own, h.window, h.pending, h.suspended, h.nodup.erase job,
          fun job' hmem => h.queued job' (List.mem_of_mem_erase hmem), h.finished, h.fresh⟩
      have hgone : ∀ uid, (uid, job) ∉ s.pendingJobs.entries := fun uid hmem => by
        obtain ⟨hne, -, huid, -⟩ := h.pending uid job hmem
        exact hne (huid.symm.trans hzero)
      have hnext := herase.finish hopen none (by simp) hgone h.nodup.not_mem_erase
      simp only [hzero, ne_eq, not_true_eq_false, if_false]
      refine ⟨hnext, hnext.once, hnext.own, hnext.window, fun hne => (hright.busy hne).imp_right fun hnil => ?_⟩
      simp [CJobManager.finish, hnil]
    · obtain ⟨hne, -, huid, hopen⟩ := h.pending uid job hpending
      obtain ⟨herase, -, hgone⟩ := h.erase hpending
      have hnext := herase.finish ⟨hopen.1, hopen.2⟩ none (by simp) hgone (by simp [hnil])
      simp only [huid, ne_eq, hne, not_false_eq_true, if_true]
      exact ⟨hnext, hnext.once, hnext.own, hnext.window, fun _ => Or.inr hnil⟩
  | respond request =>
    obtain ⟨hfits, hown⟩ := hmeets
    have hbusy : s.uidCounter = UID_MAX ∨ s.pendingJobs.size = CMD_WND_SIZE ∨ s.queuedJobs = [] :=
      or_iff_not_imp_left.mpr hright.busy
    simp only [JobManager.step]
    cases hsent : s.sent[request]? with
    | none => exact ⟨h, hright⟩
    | some e =>
      simp only [CJobManager.dispatchResponse]
      cases hget : s.pendingJobs.get e.1 with
      | none => exact h.scheduleNextJob hfits (hbusy.imp_right fun hor => hor.elim (fun hten => Or.inr (by omega))
          fun hnil => Or.inl (by simp [hnil]))
      | some job =>
        have hmem := OrderedMap.get_eq_some.mp hget
        obtain ⟨hne, -, huid, hopen⟩ := h.pending e.1 job hmem
        obtain ⟨herase, hsize, hgone⟩ := h.erase hmem
        have hqueued : job ∉ s.queuedJobs := fun hq => hne (huid.symm.trans (h.queued job hq).1)
        have hnext := herase.finish ⟨hopen.1, hopen.2⟩ (some e.2) (by simpa using hown e hsent job hget) hgone hqueued
        refine hnext.scheduleNextJob hfits (hbusy.imp_right fun hor => ?_)
        rcases hor with hten | hnil
        · exact Or.inr (by simp only [CJobManager.finish]; omega)
        · exact Or.inl (by simp [CJobManager.finish, hnil])

end

/-- In each run of a new manager whose steps do what they should, every job is finished at most once and with its own
response, at most ten requests are sent at a time, and no job waits while fewer are. -/
theorem jobs_right (ops : List Op) (hmeets : AllMeet new ops) : ∀ n, Right ((ops.take n).foldl step new) := by
  have hrun : ∀ (ops : List Op) (s : CJobManager), Consistent s → Right s → AllMeet s ops →
      ∀ n, Right ((ops.take n).foldl step s) := by
    intro ops
    induction ops with
    | nil => exact fun s _ hright _ n => by simpa using hright
    | cons op ops ih =>
      intro s h hright hmeets n
      cases n with
      | zero => exact hright
      | succ n =>
        obtain ⟨hnext, hright⟩ := h.step hright hmeets.1
        exact ih (step s op) hnext hright hmeets.2 n
  refine hrun ops new ?_ ?_ hmeets <;> constructor <;> simp [new, OrderedMap.empty, OrderedMap.size]

/-- A job is sent and finished. -/
theorem jobs_right_one : Right (([Op.suspend false, .schedule, .respond 0].take 3).foldl step new) :=
  jobs_right [Op.suspend false, .schedule, .respond 0]
    ⟨fun _ _ => by decide, Or.inr (by decide), ⟨Or.inr (by decide), by decide⟩, trivial⟩ 3

/-- A response that comes after the manager was suspended and resumed finishes another job. -/
theorem run_wrong : ¬Right ([Op.suspend false, .schedule, .suspend true, .suspend false, .schedule, .respond 0].foldl
    step new) := by
  intro h
  exact absurd (h.own 1 0 (by decide)) (by decide)

end NeoLoader.JobManager
