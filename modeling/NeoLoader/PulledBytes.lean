import Mathlib.Algebra.BigOperators.Group.List.Basic
import NeoLoader.Variant

/-!
# Bytes pulled from a session

A session keeps the bytes of its stream, and its packets with a count of their bytes. Pulling a packet adds
its size to the count, and says that the bytes are from the stream. Pulling from the stream says what the
caller said. So pulling is right only for the stream, and only if the caller says so.
-/

namespace NeoLoader.PulledBytes

open Variant (Bytes)

section Session

structure CRouteSessionImpl where
  m_Stream : Bytes
  m_Packets : List Bytes
  m_PacketsSize : ℕ

/-- The constructor. -/
def new : CRouteSessionImpl := ⟨[], [], 0⟩

def handleBytes (s : CRouteSessionImpl) (Buffer : Bytes) (bStream : Bool) : CRouteSessionImpl :=
  if bStream then { s with m_Stream := s.m_Stream ++ Buffer }
  else { s with
    m_Packets := s.m_Packets ++ [Buffer]
    m_PacketsSize := (s.m_PacketsSize + Buffer.length) % 2 ^ 64 }

def getPendingSize (s : CRouteSessionImpl) : ℕ := (s.m_Stream.length + s.m_PacketsSize) % 2 ^ 64

def isBussy (s : CRouteSessionImpl) : Bool := getPendingSize s > 128 * 1024

/-- What a caller gets: the bytes, if there are any, and what `bStream` is then. -/
structure Pulled where
  /-- `Buffer`, unless it was left alone. -/
  Buffer : Option Bytes
  bStream : Bool

/-- `PullBytes`: the first packet that is no larger than allowed, else the front of the stream. -/
def pullBytes (s : CRouteSessionImpl) (MaxBytes : ℕ) (bStream : Bool) : Pulled × CRouteSessionImpl :=
  match s.m_Packets.find? fun I => I.length ≤ MaxBytes with
  | some I =>
    (⟨some I, true⟩, { s with
      m_Packets := s.m_Packets.eraseP fun I => I.length ≤ MaxBytes
      m_PacketsSize := (s.m_PacketsSize + I.length) % 2 ^ 64 })
  | none =>
    if min MaxBytes s.m_Stream.length = 0 then (⟨none, bStream⟩, s)
    else (⟨some (s.m_Stream.take MaxBytes), bStream⟩, { s with m_Stream := s.m_Stream.drop MaxBytes })

end Session

section Traffic

/-- What was delivered to a session, and what its callers got. -/
structure Traffic where
  /-- The bytes of the stream that were delivered. -/
  stream : Bytes
  /-- The packets that were delivered. -/
  packets : List Bytes
  /-- The bytes that were pulled as bytes of the stream. -/
  streamOut : Bytes
  /-- What was pulled as packets. -/
  packetsOut : List Bytes

/-- Bytes of some packets. -/
def totalSize (packets : List Bytes) : ℕ := (packets.map List.length).sum

/-- Number of the bytes that were delivered. -/
def Traffic.delivered (t : Traffic) : ℕ := t.stream.length + totalSize t.packets

/-- Number of the bytes that were pulled. -/
def Traffic.pulled (t : Traffic) : ℕ := t.streamOut.length + totalSize t.packetsOut

/-- What is delivered. -/
def Traffic.deliver (t : Traffic) (Buffer : Bytes) (bStream : Bool) : Traffic :=
  if bStream then { t with stream := t.stream ++ Buffer }
  else { t with packets := t.packets ++ [Buffer] }

/-- What a caller gets. -/
def Traffic.pull (t : Traffic) : Pulled → Traffic
  | ⟨none, _⟩ => t
  | ⟨some Buffer, true⟩ => { t with streamOut := t.streamOut ++ Buffer }
  | ⟨some Buffer, false⟩ => { t with packetsOut := t.packetsOut ++ [Buffer] }

/-- A session and its traffic. -/
structure State where
  /-- The session. -/
  session : CRouteSessionImpl
  /-- Its traffic. -/
  traffic : Traffic

/-- A session at first. -/
def start : State := ⟨new, ⟨[], [], [], []⟩⟩

/-- What happens to a session. -/
inductive Event where
  | handleBytes (Buffer : Bytes) (bStream : Bool)
  | pullBytes (MaxBytes : ℕ) (bStream : Bool)

/-- An event. -/
def step (s : State) : Event → State
  | .handleBytes Buffer bStream =>
    ⟨handleBytes s.session Buffer bStream, s.traffic.deliver Buffer bStream⟩
  | .pullBytes MaxBytes bStream =>
    ⟨(pullBytes s.session MaxBytes bStream).2, s.traffic.pull (pullBytes s.session MaxBytes bStream).1⟩

/-- What is expected of a state. -/
structure Correct (s : State) : Prop where
  /-- The size that is pending counts the bytes that were delivered and not yet pulled. -/
  pending : getPendingSize s.session + s.traffic.pulled = s.traffic.delivered
  /-- The bytes of the stream are pulled once and in order, as such. -/
  stream : s.traffic.streamOut ++ s.session.m_Stream = s.traffic.stream
  /-- Each packet is pulled once and whole, as such. -/
  packets : (s.traffic.packetsOut ++ s.session.m_Packets).Perm s.traffic.packets
  /-- A session whose data was pulled is not busy. -/
  idle : s.traffic.pulled = s.traffic.delivered → isBussy s.session = false

/-- The states of a run are as expected. -/
def AllCorrect : State → List Event → Prop
  | s, [] => Correct s
  | s, e :: events => Correct s ∧ AllCorrect (step s e) events

/-- An event that the session deals with: bytes for which its counts have room, or a pull that takes no
packet, and takes from the stream only for a caller that expects it. -/
def StepOk (s : State) : Event → Prop
  | .handleBytes Buffer _ =>
    s.session.m_Stream.length + totalSize s.session.m_Packets + Buffer.length < 2 ^ 64
  | .pullBytes MaxBytes bStream =>
    (∀ I ∈ s.session.m_Packets, MaxBytes < I.length) ∧ (bStream = true ∨ min MaxBytes s.session.m_Stream.length = 0)

/-- The session deals with all events. -/
def AllOk : State → List Event → Prop
  | _, [] => True
  | s, e :: events => StepOk s e ∧ AllOk (step s e) events

end Traffic

section Runs

theorem totalSize_append (l m : List Bytes) : totalSize (l ++ m) = totalSize l + totalSize m := by
  simp [totalSize]

theorem totalSize_singleton (p : Bytes) : totalSize [p] = p.length := by simp [totalSize]

theorem totalSize_perm {l m : List Bytes} (h : l.Perm m) : totalSize l = totalSize m :=
  (h.map List.length).sum_eq

/-- What holds between events. -/
structure Inv (s : State) : Prop where
  /-- The count of the packets is right. -/
  count : s.session.m_PacketsSize = totalSize s.session.m_Packets
  /-- The counts do not overflow. -/
  room : s.session.m_Stream.length + totalSize s.session.m_Packets < 2 ^ 64
  /-- The bytes of the stream. -/
  stream : s.traffic.streamOut ++ s.session.m_Stream = s.traffic.stream
  /-- The packets. -/
  packets : (s.traffic.packetsOut ++ s.session.m_Packets).Perm s.traffic.packets

variable {s : State}

theorem delivered_eq (hstream : s.traffic.streamOut ++ s.session.m_Stream = s.traffic.stream)
    (hpackets : (s.traffic.packetsOut ++ s.session.m_Packets).Perm s.traffic.packets) :
    s.traffic.delivered = s.traffic.pulled + (s.session.m_Stream.length + totalSize s.session.m_Packets) := by
  have hsize := totalSize_perm hpackets
  rw [totalSize_append] at hsize
  rw [Traffic.delivered, Traffic.pulled, ← hstream, ← hsize, List.length_append]
  omega

theorem Inv.correct (h : Inv s) : Correct s := by
  have hdelivered := delivered_eq h.stream h.packets
  have hpending : getPendingSize s.session = s.session.m_Stream.length + totalSize s.session.m_Packets := by
    rw [getPendingSize, h.count, Nat.mod_eq_of_lt h.room]
  refine ⟨by omega, h.stream, h.packets, ?_⟩
  intro hall
  have hzero : getPendingSize s.session = 0 := by omega
  simp [isBussy, hzero]

theorem inv_start : Inv start := by
  constructor <;> simp [start, new, totalSize]

variable {MaxBytes : ℕ}

theorem find_none {packets : List Bytes} (h : ∀ I ∈ packets, MaxBytes < I.length) :
    (packets.find? fun I => I.length ≤ MaxBytes) = none := by
  simpa using h

section

variable {s : CRouteSessionImpl} (bStream : Bool) (h : ∀ I ∈ s.m_Packets, MaxBytes < I.length)

include bStream h

theorem pullBytes_stream (hsome : min MaxBytes s.m_Stream.length ≠ 0) : pullBytes s MaxBytes bStream =
      (⟨some (s.m_Stream.take MaxBytes), bStream⟩, { s with m_Stream := s.m_Stream.drop MaxBytes }) := by
  rw [pullBytes, find_none h, if_neg hsome]

theorem pullBytes_none (hnone : min MaxBytes s.m_Stream.length = 0) :
    pullBytes s MaxBytes bStream = (⟨none, bStream⟩, s) := by
  rw [pullBytes, find_none h, if_pos hnone]

end

/-- An event that the session deals with keeps what holds between events. -/
theorem Inv.step (h : Inv s) {e : Event} (hok : StepOk s e) : Inv (step s e) := by
  cases e with
  | handleBytes Buffer bStream =>
    have hroom : s.session.m_Stream.length + totalSize s.session.m_Packets + Buffer.length < 2 ^ 64 := hok
    have hcount := h.count
    cases bStream with
    | true =>
      refine ⟨h.count, ?_, ?_, h.packets⟩
      · simp only [PulledBytes.step, handleBytes, if_true, List.length_append]
        omega
      · simp [PulledBytes.step, handleBytes, Traffic.deliver, ← h.stream]
    | false =>
      have hsize : totalSize (s.session.m_Packets ++ [Buffer]) = totalSize s.session.m_Packets + Buffer.length := by
        rw [totalSize_append, totalSize_singleton]
      refine ⟨?_, ?_, h.stream, ?_⟩
      · simp only [PulledBytes.step, handleBytes, Bool.false_eq_true, if_false, hsize, hcount]
        exact Nat.mod_eq_of_lt (by omega)
      · simp only [PulledBytes.step, handleBytes, Bool.false_eq_true, if_false, hsize]
        omega
      · simpa [PulledBytes.step, handleBytes, Traffic.deliver, ← List.append_assoc] using
          h.packets.append_right [Buffer]
  | pullBytes MaxBytes bStream =>
    obtain ⟨hlarge, hflag⟩ := hok
    by_cases hnone : min MaxBytes s.session.m_Stream.length = 0
    · simpa only [PulledBytes.step, pullBytes_none bStream hlarge hnone, Traffic.pull] using h
    · have htrue : bStream = true := hflag.resolve_right hnone
      subst htrue
      simp only [PulledBytes.step, pullBytes_stream true hlarge hnone, Traffic.pull]
      refine ⟨h.count, ?_, ?_, h.packets⟩
      · have hroom := h.room
        simp only [List.length_drop]
        omega
      · simpa using h.stream

/-- The first packet that is small enough is one of the packets. -/
theorem find_some {packets : List Bytes} (h : ¬ ∀ I ∈ packets, MaxBytes < I.length) :
    ∃ I ∈ packets, (packets.find? fun I => I.length ≤ MaxBytes) = some I ∧
      (packets.eraseP fun I => I.length ≤ MaxBytes).length + 1 = packets.length := by
  push Not at h
  obtain ⟨J, hJ, hsmall⟩ := h
  have hsome : (packets.find? fun I => I.length ≤ MaxBytes).isSome := by
    rw [List.find?_isSome]
    exact ⟨J, hJ, by simpa using hsmall⟩
  obtain ⟨I, hI⟩ := Option.isSome_iff_exists.mp hsome
  have hlength := List.length_eraseP_of_mem (p := fun I : Bytes => I.length ≤ MaxBytes) hJ (by simpa using hsmall)
  have hpos := List.length_pos_of_mem hJ
  exact ⟨I, List.mem_of_find?_eq_some hI, hI, by omega⟩

/-- An event that the session does not deal with leads to a state that is not as expected. -/
theorem Inv.step_wrong (h : Inv s) {e : Event} (hnot : ¬ StepOk s e) : ¬ Correct (PulledBytes.step s e) := by
  intro hcorrect
  have hbefore := h.packets.length_eq
  cases e with
  | handleBytes Buffer bStream =>
    have hlarge : 2 ^ 64 ≤ s.session.m_Stream.length + totalSize s.session.m_Packets + Buffer.length := by
      simpa [StepOk] using hnot
    have hpending := hcorrect.pending
    have hdelivered := delivered_eq hcorrect.stream hcorrect.packets
    have hlt : getPendingSize (PulledBytes.step s (.handleBytes Buffer bStream)).session < 2 ^ 64 :=
      Nat.mod_lt _ (by norm_num)
    have hall : (PulledBytes.step s (.handleBytes Buffer bStream)).session.m_Stream.length +
        totalSize (PulledBytes.step s (.handleBytes Buffer bStream)).session.m_Packets =
        s.session.m_Stream.length + totalSize s.session.m_Packets + Buffer.length := by
      cases bStream with
      | true =>
        simp [PulledBytes.step, handleBytes]
        omega
      | false =>
        simp [PulledBytes.step, handleBytes, totalSize_append, totalSize_singleton]
        omega
    omega
  | pullBytes MaxBytes bStream =>
    have hafter := hcorrect.packets.length_eq
    by_cases hlarge : ∀ I ∈ s.session.m_Packets, MaxBytes < I.length
    · have hsome : bStream = false ∧ min MaxBytes s.session.m_Stream.length ≠ 0 := by
        simp only [StepOk, not_and, not_or] at hnot
        simpa using hnot hlarge
      obtain ⟨rfl, hsome⟩ := hsome
      -- bytes of the stream are taken for a packet that was never delivered
      simp only [PulledBytes.step, pullBytes_stream false hlarge hsome, Traffic.pull,
        List.length_append, List.length_singleton] at hafter hbefore
      omega
    · obtain ⟨I, -, hfind, herase⟩ := find_some hlarge
      -- a packet is gone and was not pulled as one
      simp only [PulledBytes.step, pullBytes, hfind, Traffic.pull, List.length_append] at hafter hbefore
      omega

/-- The states of a run are as expected if and only if the session deals with all its events. -/
theorem Inv.all_iff (h : Inv s) (events : List Event) : AllCorrect s events ↔ AllOk s events := by
  induction events generalizing s with
  | nil => simp [AllCorrect, AllOk, h.correct]
  | cons e events ih =>
    simp only [AllCorrect, AllOk, h.correct, true_and]
    by_cases hok : StepOk s e
    · simp [hok, ih (h.step hok)]
    · have hwrong := h.step_wrong hok
      have hnot : ¬ AllCorrect (PulledBytes.step s e) events := by
        cases events with
        | nil => exact hwrong
        | cons e' events => exact fun hall => hwrong hall.1
      simp [hok, hnot]

/-- The states of a session are as expected if and only if it deals with all events: no packet is pulled,
and bytes of the stream are pulled by callers that expect them. -/
theorem allCorrect_iff (events : List Event) : AllCorrect start events ↔ AllOk start events :=
  inv_start.all_iff events

/-- A packet of one byte is not pulled as a packet, and is pending after that. -/
theorem pull_wrong : ¬ AllCorrect start [.handleBytes [7] false, .pullBytes 10 false] ∧
      (pullBytes (handleBytes new [7] false) 10 false).1.Buffer = some [7] ∧
      (pullBytes (handleBytes new [7] false) 10 false).1.bStream = true ∧
      getPendingSize (pullBytes (handleBytes new [7] false) 10 false).2 = 2 := by
  refine ⟨?_, rfl, rfl, rfl⟩
  have hiff := inv_start.all_iff [.handleBytes [7] false, .pullBytes 10 false]
  rw [hiff]
  simp [AllOk, StepOk, PulledBytes.step, start, new, handleBytes]

end Runs

end NeoLoader.PulledBytes
