import Mathlib.Data.Prod.Lex
import NeoLoader.MultiMap
import NeoLoader.Variant

/-!
# Sessions of a route

The sessions of a route are in a map by their entities, with several sessions for one entity. They are
looked for from the first session of the entity on. Local calls walk on over the sessions of other entities,
and frames and acks stop at the next entity and take its session for the one they look for.
-/

namespace NeoLoader.RouteSessions

open ByteReader MultiMap
open Variant (Bytes)

section Keys

/-- A variant as a key: only its payload is compared. -/
structure Key where
  /-- The payload. -/
  payload : Bytes
  deriving DecidableEq

/-- `memcmp` of as many bytes on both sides. -/
def memcmp : Bytes → Bytes → ℤ
  | a :: l, b :: r => if a < b then -1 else if b < a then 1 else memcmp l r
  | _, _ => 0

/-- `CVariant::Compare`, by `CBuffer::Compare`. -/
def compare (l r : Bytes) : ℤ :=
  if r.length < l.length then -1 else if r.length > l.length then 1 else memcmp r l

/-- Keys are in the order of their lengths, and those of one length in that of their bytes. -/
instance linearOrderKey : LinearOrder Key :=
  LinearOrder.lift' (fun k : Key => toLex (k.payload.length, k.payload)) (by
    rintro ⟨a⟩ ⟨b⟩ h
    simpa using congrArg (fun p => (ofLex p).2) h)

end Keys

section Sessions

/-- `Frame`, as far as a route looks at it. -/
structure Frame where
  /-- `Has("RAW")`. -/
  RAW : Bool
  /-- `EID`, the entity that sent it. -/
  EID : Key
  /-- `SID`, if it has one. -/
  SID : Option Key
  /-- `TID`, if it has one. -/
  TID : Option Key
  deriving DecidableEq

/-- `Ack`, as far as a route looks at it. -/
structure Ack where
  /-- `RID`, the entity that sent it. -/
  RID : Key
  /-- `SID`, if it has one. -/
  SID : Option Key
  deriving DecidableEq

/-- What a route does with a session. -/
inductive Call where
  | initSession (bSender : Bool)
  | processFrame (Frame : Frame)
  | ackFrame (Ack : Ack)
  | queueBytes (Buffer : Bytes) (bStream : Bool)
  | pullBytes (MaxBytes : ℕ)
  | closeSession
  deriving DecidableEq

structure CRouteSession where
  /-- `GetTargetID`. -/
  TargetID : Key
  /-- `GetSessionID`. -/
  SessionID : Key
  /-- What the route did with it. -/
  calls : List Call
  deriving DecidableEq

abbrev SessionMap := OrderedMultiMap Key CRouteSession

/-- The session after a call. -/
def CRouteSession.call (s : CRouteSession) (c : Call) : CRouteSession :=
  { s with calls := s.calls ++ [c] }

/-- Where the loop of `CloseSession`, `QueueBytes` and `PullBytes` ends. -/
def localTarget (m : SessionMap) (EntityID SessionID : Key) : ℕ :=
  walk m (fun I => I.2.SessionID ≠ SessionID) (find m EntityID)

/-- Where the loop of `AckUp` and `RelayDown` ends. -/
def frameTarget (m : SessionMap) (EntityID SessionID : Key) : ℕ :=
  walk m (fun I => I.1 = EntityID ∧ I.2.SessionID ≠ SessionID) (find m EntityID)

/-- A local call: `CloseSession`, `QueueBytes` or `PullBytes`, and whether there was a session. -/
def localCall (m : SessionMap) (EntityID SessionID : Key) (c : Call) : Bool × SessionMap :=
  if localTarget m EntityID SessionID ≠ m.entries.length then
    (true, modify m (localTarget m EntityID SessionID) (·.call c))
  else (false, m)

/-- `CKadRoute::CloseSession`. -/
def closeSession (m : SessionMap) (EntityID SessionID : Key) : Bool × SessionMap :=
  localCall m EntityID SessionID .closeSession

/-- `CKadRouteImpl::QueueBytes`. -/
def queueBytes (m : SessionMap) (EntityID SessionID : Key) (Buffer : Bytes) (bStream : Bool) :
    Bool × SessionMap := localCall m EntityID SessionID (.queueBytes Buffer bStream)

/-- `CKadRouteImpl::PullBytes`. -/
def pullBytes (m : SessionMap) (EntityID SessionID : Key) (MaxBytes : ℕ) : Bool × SessionMap :=
  localCall m EntityID SessionID (.pullBytes MaxBytes)

/-- `CKadRoute::AckUp`, with what a session says to an ack, and whether the ack is passed on. -/
def ackUp (accepts : CRouteSession → Ack → Bool) (m : SessionMap) (Ack : Ack) (bDelivery : Bool) : Bool × SessionMap :=
  match if bDelivery then Ack.SID else none with
  | none => (true, m)
  | some SessionID =>
    match m.entries[frameTarget m Ack.RID SessionID]? with
    | some I => (accepts I.2 Ack, modify m (frameTarget m Ack.RID SessionID) (·.call (.ackFrame Ack)))
    | none => (true, m)

/-- The session that is made for a frame. -/
def mkRouteSession (ID : Key) (Frame : Frame) (SessionID : Key) : CRouteSession :=
  ⟨Frame.TID.getD ID, SessionID, [.initSession false]⟩

/-- `CKadRoute::RelayDown` of a route with some ID. -/
def relayDown (ID : Key) (m : SessionMap) (Frame : Frame) : SessionMap :=
  if Frame.RAW then m
  else match Frame.SID with
    | none => m
    | some SessionID =>
      if frameTarget m Frame.EID SessionID = m.entries.length then
        insert m Frame.EID ((mkRouteSession ID Frame SessionID).call (.processFrame Frame))
      else modify m (frameTarget m Frame.EID SessionID) (·.call (.processFrame Frame))

end Sessions

section Statement

/-- What comes to a route. -/
inductive Request where
  /-- A frame. -/
  | relayDown (Frame : Frame)
  /-- An ack. -/
  | ackUp (Ack : Ack) (bDelivery : Bool)
  /-- A call of `QueueBytes`. -/
  | queueBytes (EntityID SessionID : Key) (Buffer : Bytes) (bStream : Bool)
  /-- A call of `PullBytes`. -/
  | pullBytes (EntityID SessionID : Key) (MaxBytes : ℕ)
  /-- A call of `CloseSession`. -/
  | closeSession (EntityID SessionID : Key)

variable (ID : Key) (accepts : CRouteSession → Ack → Bool)

/-- The sessions after a request. -/
def step (m : SessionMap) : Request → SessionMap
  | .relayDown Frame => relayDown ID m Frame
  | .ackUp Ack bDelivery => (ackUp accepts m Ack bDelivery).2
  | .queueBytes EntityID SessionID Buffer bStream => (queueBytes m EntityID SessionID Buffer bStream).2
  | .pullBytes EntityID SessionID MaxBytes => (pullBytes m EntityID SessionID MaxBytes).2
  | .closeSession EntityID SessionID => (closeSession m EntityID SessionID).2

/-- There is a session of an entity and a session ID. -/
def HasSession (m : SessionMap) (EntityID SessionID : Key) : Prop :=
  ∃ I ∈ m.entries, I.1 = EntityID ∧ I.2.SessionID = SessionID

/-- One session of an entity and a session ID was called, and nothing else was done. -/
def Called (m : SessionMap) (EntityID SessionID : Key) (c : Call) (m' : SessionMap) : Prop :=
  ∃ i I, m.entries[i]? = some I ∧ I.1 = EntityID ∧ I.2.SessionID = SessionID ∧ m' = modify m i (·.call c)

/-- What is expected of a call for an entity and a session ID: a session of these is called, and without
one nothing happens. -/
def CallRight (m : SessionMap) (EntityID SessionID : Key) (c : Call) (m' : SessionMap) : Prop :=
  (HasSession m EntityID SessionID → Called m EntityID SessionID c m') ∧ (¬ HasSession m EntityID SessionID → m' = m)

/-- What is expected of a request. A frame without a session gets a new one of its entity and its session
ID. -/
def Right (m : SessionMap) : Request → SessionMap → Prop
  | .relayDown Frame, m' =>
    match if Frame.RAW then none else Frame.SID with
    | none => m' = m
    | some SessionID =>
      (HasSession m Frame.EID SessionID → Called m Frame.EID SessionID (.processFrame Frame) m') ∧
        (¬ HasSession m Frame.EID SessionID →
          m' = insert m Frame.EID ((mkRouteSession ID Frame SessionID).call (.processFrame Frame)))
  | .ackUp Ack bDelivery, m' =>
    match if bDelivery then Ack.SID else none with
    | none => m' = m
    | some SessionID => CallRight m Ack.RID SessionID (.ackFrame Ack) m'
  | .queueBytes EntityID SessionID Buffer bStream, m' =>
    CallRight m EntityID SessionID (.queueBytes Buffer bStream) m'
  | .pullBytes EntityID SessionID MaxBytes, m' =>
    CallRight m EntityID SessionID (.pullBytes MaxBytes) m'
  | .closeSession EntityID SessionID, m' => CallRight m EntityID SessionID .closeSession m'

/-- A loop that looks only for the session ID does not leave the entity: it has the session, or there is no
session of the entity, or no session ID behind the entity is the same. -/
def LocalOk (m : SessionMap) (EntityID SessionID : Key) : Prop :=
  HasSession m EntityID SessionID ∨ (∀ I ∈ m.entries, I.1 ≠ EntityID) ∨
    ∀ I ∈ m.entries, EntityID < I.1 → I.2.SessionID ≠ SessionID

/-- A loop that ends at the next entity does not find it: there is the session, or no session of the
entity, or no entity behind it. -/
def FrameOk (m : SessionMap) (EntityID SessionID : Key) : Prop :=
  HasSession m EntityID SessionID ∨ (∀ I ∈ m.entries, I.1 ≠ EntityID) ∨ ∀ I ∈ m.entries, ¬ EntityID < I.1

/-- The sessions are such that a request comes to the right one. -/
def RequestOk (m : SessionMap) : Request → Prop
  | .relayDown Frame =>
    match if Frame.RAW then none else Frame.SID with
    | none => True
    | some SessionID => FrameOk m Frame.EID SessionID
  | .ackUp Ack bDelivery =>
    match if bDelivery then Ack.SID else none with
    | none => True
    | some SessionID => FrameOk m Ack.RID SessionID
  | .queueBytes EntityID SessionID _ _ => LocalOk m EntityID SessionID
  | .pullBytes EntityID SessionID _ => LocalOk m EntityID SessionID
  | .closeSession EntityID SessionID => LocalOk m EntityID SessionID

end Statement

section Targets

variable {m : SessionMap} {EntityID SessionID : Key}

/-- Where a loop over the sessions from the entity on may end: at the end or at a session of an entity
behind, and then the pair has no session, or at a session of the pair. -/
inductive Ends (m : SessionMap) (EntityID SessionID : Key) : ℕ → Prop where
  /-- There is no session. -/
  | none (h : ¬ HasSession m EntityID SessionID) : Ends m EntityID SessionID m.entries.length
  /-- A session of the pair. -/
  | found {i : ℕ} {I : Key × CRouteSession} (hget : m.entries[i]? = some I) (hkey : I.1 = EntityID)
    (hid : I.2.SessionID = SessionID) : Ends m EntityID SessionID i
  /-- A session of another entity. -/
  | other {i : ℕ} {I : Key × CRouteSession} (hget : m.entries[i]? = some I) (hkey : EntityID < I.1)
    (h : ¬ HasSession m EntityID SessionID) : Ends m EntityID SessionID i

theorem lt_length_of_get {i : ℕ} {I : Key × CRouteSession} (h : m.entries[i]? = some I) :
    i < m.entries.length := (List.getElem?_eq_some_iff.mp h).1

variable {cond : Key × CRouteSession → Bool}

/-- Where a loop ends that walks over all sessions of the entity with other session IDs. -/
theorem ends_of_walk (hcond : ∀ I : Key × CRouteSession, I.1 = EntityID → (cond I = true ↔ I.2.SessionID ≠ SessionID))
    (hwalked : ∀ I : Key × CRouteSession, cond I = true → I.2.SessionID ≠ SessionID) :
    Ends m EntityID SessionID (walk m cond (find m EntityID)) := by
  obtain ⟨hle, hbefore, -⟩ := find_spec m EntityID
  obtain ⟨hfrom, hend, hover, hstop⟩ := walk_spec m cond hle
  have hnone : (∀ I, m.entries[walk m cond (find m EntityID)]? = some I → EntityID < I.1) →
      ¬ HasSession m EntityID SessionID := by
    rintro hbehind ⟨I, hmem, hkey, hid⟩
    obtain ⟨j, hj⟩ := List.mem_iff_getElem?.mp hmem
    rcases Nat.lt_or_ge j (find m EntityID) with hlt | hge
    · exact hbefore j hlt I hj hkey
    · rcases Nat.lt_trichotomy j (walk m cond (find m EntityID)) with hlt | heq | hgt
      · exact hwalked I (hover j hge hlt I hj) hid
      · subst heq
        exact (hbehind I hj).ne' hkey
      · have hat := List.getElem?_eq_getElem (hgt.trans (lt_length_of_get hj))
        have hkeys := MultiMap.le_of_lt hgt hat hj
        exact absurd (hkey ▸ hkeys) (not_le.mpr (hbehind _ hat))
  rcases hend.lt_or_eq with hlt | heq
  · obtain ⟨I, hat⟩ : ∃ I, m.entries[walk m cond (find m EntityID)]? = some I :=
      ⟨_, List.getElem?_eq_getElem hlt⟩
    have hfalse := hstop I hat
    by_cases hkey : I.1 = EntityID
    · refine Ends.found hat hkey ?_
      by_contra hid
      exact absurd ((hcond I hkey).mpr hid) (by simp [hfalse])
    · have hbehind := lt_of_find_le hfrom hat hkey
      have hfound : find m EntityID ≠ m.entries.length := by omega
      refine Ends.other hat hbehind (hnone ?_)
      intro J hJ
      rw [hat, Option.some_inj] at hJ
      exact hJ ▸ hbehind
  · rw [heq]
    refine Ends.none (hnone ?_)
    intro I hI
    rw [heq, List.getElem?_eq_none le_rfl] at hI
    exact absurd hI (by simp)

theorem ends_localTarget (m : SessionMap) (EntityID SessionID : Key) :
    Ends m EntityID SessionID (localTarget m EntityID SessionID) :=
  ends_of_walk (fun I _ => by simp) (fun I h => by simpa using h)

theorem ends_frameTarget (m : SessionMap) (EntityID SessionID : Key) :
    Ends m EntityID SessionID (frameTarget m EntityID SessionID) :=
  ends_of_walk (fun I h => by simp [h]) (fun I h => by simpa using (of_decide_eq_true h).2)

theorem walk_eq_length (h : ∀ I ∈ m.entries, I.1 ≠ EntityID) : walk m cond (find m EntityID) = m.entries.length := by
  have hfind := (find_eq_length_iff m EntityID).mpr h
  obtain ⟨hfrom, hend, -⟩ := walk_spec m cond hfind.le
  omega

/-- A loop that ends at the end of the map has walked over all entities behind. -/
theorem walked_behind (h : walk m cond (find m EntityID) = m.entries.length) :
    (∀ I ∈ m.entries, I.1 ≠ EntityID) ∨ ∀ I ∈ m.entries, EntityID < I.1 → cond I = true := by
  obtain ⟨hle, -⟩ := find_spec m EntityID
  obtain ⟨-, -, hover, -⟩ := walk_spec m cond hle
  rcases hle.lt_or_eq with hlt | heq
  · refine Or.inr ?_
    intro I hI hkey
    obtain ⟨j, hj⟩ := List.mem_iff_getElem?.mp hI
    have hbehind := find_lt_of_lt hj hkey hlt
    exact hover j hbehind.le (h ▸ lt_length_of_get hj) I hj
  · exact Or.inl ((find_eq_length_iff m EntityID).mp heq)

/-- A local loop stays with the entity if and only if it finds the session or ends. -/
theorem localOk_iff (m : SessionMap) (EntityID SessionID : Key) : LocalOk m EntityID SessionID ↔
      localTarget m EntityID SessionID = m.entries.length ∨ HasSession m EntityID SessionID := by
  constructor
  · rintro (h | h | h)
    · exact Or.inr h
    · exact Or.inl (walk_eq_length h)
    · have hends := ends_localTarget m EntityID SessionID
      obtain ⟨-, -, -, hstop⟩ :=
        walk_spec m (fun I => I.2.SessionID ≠ SessionID) (find_spec m EntityID).1
      change ∀ I, m.entries[localTarget m EntityID SessionID]? = some I → _ at hstop
      generalize localTarget m EntityID SessionID = i at hends hstop ⊢
      cases hends with
      | none hnot => exact Or.inl rfl
      | found hget hkey hid => exact Or.inr ⟨_, List.mem_of_getElem? hget, hkey, hid⟩
      | other hget hkey hnot =>
        have hne := h _ (List.mem_of_getElem? hget) hkey
        have hfalse := hstop _ hget
        simp [hne] at hfalse
  · rintro (h | h)
    · refine Or.inr ((walked_behind h).imp_right ?_)
      intro hall I hI hkey
      simpa using hall I hI hkey
    · exact Or.inl h

/-- A loop for a frame or an ack does not reach another entity if and only if it finds the session or
ends. -/
theorem frameOk_iff (m : SessionMap) (EntityID SessionID : Key) : FrameOk m EntityID SessionID ↔
      frameTarget m EntityID SessionID = m.entries.length ∨ HasSession m EntityID SessionID := by
  constructor
  · rintro (h | h | h)
    · exact Or.inr h
    · exact Or.inl (walk_eq_length h)
    · have hends := ends_frameTarget m EntityID SessionID
      generalize frameTarget m EntityID SessionID = i at hends ⊢
      cases hends with
      | none hnot => exact Or.inl rfl
      | found hget hkey hid => exact Or.inr ⟨_, List.mem_of_getElem? hget, hkey, hid⟩
      | other hget hkey hnot => exact absurd hkey (h _ (List.mem_of_getElem? hget))
  · rintro (h | h)
    · refine Or.inr ((walked_behind h).imp_right ?_)
      intro hall I hI hkey
      have hsame : I.1 = EntityID := (of_decide_eq_true (hall I hI hkey)).1
      exact absurd hsame hkey.ne'
    · exact Or.inl h

theorem call_ne (s : CRouteSession) (c : Call) : s.call c ≠ s := by
  intro h
  have hlength := congrArg (fun s => s.calls.length) h
  simp [CRouteSession.call] at hlength

/-- A call at the end of a loop is right if and only if the loop finds the session or ends. -/
theorem callRight_iff {i : ℕ} (hends : Ends m EntityID SessionID i) (c : Call) :
    CallRight m EntityID SessionID c (if i ≠ m.entries.length then modify m i (·.call c) else m) ↔
      i = m.entries.length ∨ HasSession m EntityID SessionID := by
  cases hends with
  | none hnot => simp [CallRight, hnot]
  | found hget hkey hid =>
    have hhas : HasSession m EntityID SessionID := ⟨_, List.mem_of_getElem? hget, hkey, hid⟩
    have hne := (lt_length_of_get hget).ne
    simp only [CallRight, hhas, hne, ne_eq, not_false_eq_true, if_true, true_implies, not_true_eq_false,
      false_implies, and_true, or_true, iff_true]
    exact ⟨i, _, hget, hkey, hid, rfl⟩
  | other hget hkey hnot =>
    have hlt := lt_length_of_get hget
    simp [CallRight, hnot, hlt.ne, modify_ne hlt fun s => call_ne s c]

/-- A frame at the end of a loop comes to the right session if and only if the loop finds the session or
ends. -/
theorem frameRight_iff_target {i : ℕ} (hends : Ends m EntityID SessionID i) (c : Call) (s : CRouteSession) :
    (HasSession m EntityID SessionID → Called m EntityID SessionID c
        (if i = m.entries.length then MultiMap.insert m EntityID s else modify m i (·.call c))) ∧
      (¬ HasSession m EntityID SessionID →
        (if i = m.entries.length then MultiMap.insert m EntityID s else modify m i (·.call c)) =
          MultiMap.insert m EntityID s) ↔
      i = m.entries.length ∨ HasSession m EntityID SessionID := by
  cases hends with
  | none hnot => simp [hnot]
  | found hget hkey hid =>
    have hhas : HasSession m EntityID SessionID := ⟨_, List.mem_of_getElem? hget, hkey, hid⟩
    have hne := (lt_length_of_get hget).ne
    simp only [hhas, hne, if_false, true_implies, not_true_eq_false, false_implies, and_true, or_true, iff_true]
    exact ⟨i, _, hget, hkey, hid, rfl⟩
  | other hget hkey hnot =>
    have hlt := lt_length_of_get hget
    have hne : modify m i (·.call c) ≠ MultiMap.insert m EntityID s := by
      intro heq
      have hlength := congrArg (fun m => m.entries.length) heq
      simp only [length_modify, length_insert] at hlength
      omega
    simp [hnot, hlt.ne, hne]

theorem localCall_snd (m : SessionMap) (EntityID SessionID : Key) (c : Call) :
    (localCall m EntityID SessionID c).2 = if localTarget m EntityID SessionID ≠ m.entries.length then
      modify m (localTarget m EntityID SessionID) (·.call c) else m := by
  rw [localCall]
  split <;> rfl

theorem ackUp_snd (accepts : CRouteSession → Ack → Bool) (m : SessionMap) {Ack : Ack} {bDelivery : Bool}
    (h : (if bDelivery then Ack.SID else none) = some SessionID) :
    (ackUp accepts m Ack bDelivery).2 = if frameTarget m Ack.RID SessionID ≠ m.entries.length then
      modify m (frameTarget m Ack.RID SessionID) (·.call (.ackFrame Ack)) else m := by
  have hends := ends_frameTarget m Ack.RID SessionID
  rw [ackUp, h]
  dsimp only
  cases hget : m.entries[frameTarget m Ack.RID SessionID]? with
  | none =>
    have hlength : frameTarget m Ack.RID SessionID = m.entries.length := by
      generalize frameTarget m Ack.RID SessionID = i at hends hget
      cases hends with
      | none hnot => rfl
      | found hget' => simp [hget'] at hget
      | other hget' => simp [hget'] at hget
    simp [hlength]
  | some I =>
    rw [if_pos (lt_length_of_get hget).ne]

theorem localCall_right_iff (m : SessionMap) (EntityID SessionID : Key) (c : Call) :
    CallRight m EntityID SessionID c (localCall m EntityID SessionID c).2 ↔
      LocalOk m EntityID SessionID := by
  rw [localCall_snd, callRight_iff (ends_localTarget m EntityID SessionID), localOk_iff]

/-- A request comes to the session of its entity and its session ID if and only if the sessions are such
that its loop does not reach another entity. -/
theorem request_right_iff (ID : Key) (accepts : CRouteSession → Ack → Bool) (m : SessionMap) (r : Request) :
    Right ID m r (step ID accepts m r) ↔ RequestOk m r := by
  cases r with
  | relayDown Frame =>
    cases hsid : (if Frame.RAW then none else Frame.SID) with
    | none =>
      have hsame : relayDown ID m Frame = m := by
        cases hraw : Frame.RAW <;> simp_all [relayDown]
      simp [Right, RequestOk, hsid, step, hsame]
    | some SessionID =>
      have hraw : Frame.RAW = false := by
        cases hraw : Frame.RAW <;> simp_all
      have hid : Frame.SID = some SessionID := by simpa [hraw] using hsid
      simp only [Right, RequestOk, step, relayDown, hraw, hid, Bool.false_eq_true, if_false]
      rw [frameRight_iff_target (ends_frameTarget m Frame.EID SessionID), frameOk_iff]
  | ackUp Ack bDelivery =>
    cases hsid : (if bDelivery then Ack.SID else none) with
    | none => simp [Right, RequestOk, hsid, step, ackUp]
    | some SessionID =>
      simp only [Right, RequestOk, hsid, step, ackUp_snd accepts m hsid]
      rw [callRight_iff (ends_frameTarget m Ack.RID SessionID), frameOk_iff]
  | queueBytes EntityID SessionID Buffer bStream => exact localCall_right_iff m EntityID SessionID _
  | pullBytes EntityID SessionID MaxBytes => exact localCall_right_iff m EntityID SessionID _
  | closeSession EntityID SessionID => exact localCall_right_iff m EntityID SessionID _

end Targets

section Example

/-- A route with one session each of two entities. -/
def twoSessions : SessionMap where
  entries := [(⟨[1]⟩, ⟨⟨[0]⟩, ⟨[5]⟩, []⟩), (⟨[2]⟩, ⟨⟨[0]⟩, ⟨[6]⟩, []⟩)]
  sorted := by decide

/-- A frame of the first entity for a session that it does not have. -/
def otherFrame : Frame := ⟨false, ⟨[1]⟩, some ⟨[7]⟩, none⟩

/-- The frame comes to the session of the second entity. -/
theorem frame_to_other : ¬ HasSession twoSessions ⟨[1]⟩ ⟨[7]⟩ ∧
      (step ⟨[0]⟩ (fun _ _ => true) twoSessions (.relayDown otherFrame)).entries =
        [(⟨[1]⟩, ⟨⟨[0]⟩, ⟨[5]⟩, []⟩), (⟨[2]⟩, ⟨⟨[0]⟩, ⟨[6]⟩, [.processFrame otherFrame]⟩)] ∧
      ¬ Right ⟨[0]⟩ twoSessions (.relayDown otherFrame)
        (step ⟨[0]⟩ (fun _ _ => true) twoSessions (.relayDown otherFrame)) := by
  have hnot : ¬ HasSession twoSessions ⟨[1]⟩ ⟨[7]⟩ := by simp [HasSession, twoSessions]
  refine ⟨hnot, by decide, ?_⟩
  intro h
  have hnew := h.2 hnot
  exact absurd (congrArg (fun m => m.entries.length) hnew) (by decide)

end Example

end NeoLoader.RouteSessions
