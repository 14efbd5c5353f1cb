import NeoLoader.ReceivedBlocks
import NeoLoader.TransferReservation

/-!
# The writes of a file

A queued write is reported when it is done, and its bytes are then available, or to be downloaded again.
Reports come in any order, and between them other blocks are received and other maps of the same bytes
change. The queued writes stay apart, and no available byte is among theirs.
-/

namespace NeoLoader.BlockWrites

open Tiling RangeMap PartStates JoinedPartMap SharedRanges ReceivedBlocks

section Written

variable {N : ℕ} {parts : CPartMap}

/-- `CFile::OnDataWriten`. -/
def onDataWriten (pOperation : CWriteOperation) (bOk : Bool) (parts : CPartMap) : CPartMap :=
  let uBegin := pOperation.offset
  let uEnd := pOperation.offset + pOperation.data.length
  let parts := parts.setStates uBegin uEnd Part.Cached ESet.eClr
  if bOk = false then parts
  else (parts.setStates uBegin uEnd (Part.Verified ||| Part.Corrupt) ESet.eClr).setStates uBegin uEnd
    Part.Available ESet.eAdd

/-- What a reported write does: its bytes are not cached any more, and available if it succeeded; all
others stay as they are. -/
structure Written (N : ℕ) (w : CWriteOperation) (bOk : Bool) (parts parts' : CPartMap) : Prop where
  /-- The map still covers the file. -/
  ok : parts'.Ok N
  /-- The other bytes stay as they are. -/
  outside : ∀ x < N, ¬w.Covers x → parts'.stateAt x = parts.stateAt x
  /-- The written bytes. -/
  inside : ∀ x, w.Covers x → available parts x = false → cached parts' x = false ∧ available parts' x = bOk

/-- A write is reported as it should be if the flags of its bytes can be set and cleared. -/
theorem onDataWriten_spec (h : parts.Ok N) {w : CWriteOperation} (hne : w.data ≠ [])
    (hend : w.offset + w.data.length ≤ N) (hset : ∀ x, w.Covers x → parts.Settable x) (bOk : Bool) :
    Written N w bOk parts (onDataWriten w bOk parts) := by
  have hlt : w.offset < w.offset + w.data.length := by
    have := List.length_pos_iff.mpr hne
    omega
  have hcached : (BitVec.ofNat 32 Part.Cached).getLsbD 0 = false ∧
      (BitVec.ofNat 32 Part.Cached).getLsbD 3 = true := by decide
  have hclr := setSpec h hlt hend Part.Cached (show ESet.eClr ≠ ESet.eSet by decide)
  have hno : ∀ x, w.Covers x → available parts x = false →
      cached (parts.setStates w.offset (w.offset + w.data.length) Part.Cached ESet.eClr) x = false ∧
      available (parts.setStates w.offset (w.offset + w.data.length) Part.Cached ESet.eClr) x =
        false := by
    intro x hx hfalse
    have hchanged := hclr.inside x hx.1 hx.2 (hset x hx)
    have h0 := hchanged 0 (Or.inl rfl)
    have h3 := hchanged 3 (Or.inr rfl)
    dsimp only at h0 h3
    unfold available at hfalse
    unfold cached available
    rw [h3, h0, hcached.1, hcached.2, hfalse]
    exact ⟨Bool.and_false _, rfl⟩
  unfold onDataWriten
  dsimp only
  cases bOk with
  | false =>
    rw [if_pos rfl]
    exact ⟨hclr.ok, hclr.outside, hno⟩
  | true =>
    rw [if_neg (by decide)]
    have hhash := setSpec hclr.ok hlt hend (Part.Verified ||| Part.Corrupt) (show ESet.eClr ≠ ESet.eSet by decide)
    have hadd := setSpec hhash.ok hlt hend Part.Available (show ESet.eAdd ≠ ESet.eSet by decide)
    have hbits : (BitVec.ofNat 32 (Part.Verified ||| Part.Corrupt)).getLsbD 3 = false ∧
        (BitVec.ofNat 32 Part.Available).getLsbD 0 = true ∧
        (BitVec.ofNat 32 Part.Available).getLsbD 3 = false := by decide
    refine ⟨hadd.ok, fun x hx hout => ?_, fun x hx hfalse => ?_⟩
    · exact (hadd.outside x hx hout).trans ((hhash.outside x hx hout).trans (hclr.outside x hx hout))
    · have hs := hclr.settable x (hset x hx)
      have h3 := hhash.inside x hx.1 hx.2 hs 3 (Or.inr rfl)
      have hchanged := hadd.inside x hx.1 hx.2 (hhash.settable x hs)
      have h0' := hchanged 0 (Or.inl rfl)
      have h3' := hchanged 3 (Or.inr rfl)
      have hno3 := (hno x hx hfalse).1
      dsimp only at h3 h0' h3'
      unfold cached at hno3
      unfold cached available
      rw [h3', h3, h0', hno3, hbits.1, hbits.2.1, hbits.2.2]
      exact ⟨rfl, Bool.or_true _⟩

end Written

section Runs

variable {N : ℕ}

/-- The map of a file and the writes that are not reported yet. -/
structure State where
  /-- The map. -/
  parts : CPartMap
  /-- The writes, in the order they were queued. -/
  pending : List CWriteOperation

/-- What can happen. -/
inductive Event where
  /-- A transfer receives a block. -/
  | received (uBegin uEnd : ℕ) (Data : QByteArray) (bComplete : Bool)
  /-- A write is reported. -/
  | written (pOperation : CWriteOperation) (bOk : Bool)
  /-- Anything else that changes the map. -/
  | other

/-- What releasing the range of a block may change: the other flags of its bytes. -/
structure Released (N uBegin uEnd : ℕ) (parts parts' : CPartMap) : Prop where
  /-- The map still covers the file. -/
  ok : parts'.Ok N
  /-- The bytes around the range stay as they are. -/
  outside : ∀ x < N, ¬(uBegin ≤ x ∧ x < uEnd) → parts'.stateAt x = parts.stateAt x
  /-- No byte gets or loses these flags. -/
  flags : ∀ x < N, available parts' x = available parts x ∧ cached parts' x = cached parts x

/-- What may happen elsewhere: the bytes of the queued writes keep their flags. -/
structure Elsewhere (N : ℕ) (s : State) (parts' : CPartMap) : Prop where
  /-- The map still covers the file. -/
  ok : parts'.Ok N
  /-- The flags of the bytes that are to be written. -/
  flags : ∀ x < N, queuedAt s.pending x ≠ [] →
    available parts' x = available s.parts x ∧ cached parts' x = cached s.parts x

/-- A step of the file. The writes may be reported in any order. -/
inductive Step (N : ℕ) : State → Event → State → Prop where
  /-- A block is received, and its range released. -/
  | received {s : State} {uBegin uEnd : ℕ} {Data : QByteArray} {bComplete : Bool}
    {parts parts' : CPartMap} {writes : List CWriteOperation} :
    uBegin < uEnd → uEnd < 2 ^ 64 →
    rangeReceived N uBegin uEnd Data bComplete s.parts = some (parts, writes) →
    Released N uBegin uEnd parts parts' →
    Step N s (Event.received uBegin uEnd Data bComplete) ⟨parts', s.pending ++ writes⟩
  /-- One of the writes is reported. -/
  | written {s : State} {front back : List CWriteOperation} {w : CWriteOperation} {bOk : Bool} :
    s.pending = front ++ w :: back →
    Step N s (Event.written w bOk) ⟨onDataWriten w bOk s.parts, front ++ back⟩
  /-- Something else happens. -/
  | other {s : State} {parts' : CPartMap} : Elsewhere N s parts' → Step N s Event.other ⟨parts', s.pending⟩

/-- When a step does what it should. A block has to cover the bytes that were not had, and the map has to
look at all of them and be able to mark them; a complete file has to have them all. -/
def Meets (N : ℕ) (s : State) : Event → Prop
  | Event.received uBegin uEnd Data bComplete =>
    (bComplete = true → ∀ x < N, uBegin ≤ x → x < uEnd → had s.parts x = true) ∧
      (bComplete = false → s.parts.Seen N uBegin uEnd ∧ Covered N uBegin uEnd Data s.parts)
  | Event.written w _ => ∀ x, w.Covers x → s.parts.Settable x
  | Event.other => True

/-- What a step should do. -/
def Correct (N : ℕ) (s s' : State) : Event → Prop
  | Event.received uBegin uEnd Data _ => ∃ parts writes, s'.pending = s.pending ++ writes ∧
      Received N uBegin uEnd Data s.parts parts writes ∧ Released N uBegin uEnd parts s'.parts
  | Event.written w bOk => Written N w bOk s.parts s'.parts ∧
      ∀ x, w.Covers x → cached s'.parts x = false ∧ available s'.parts x = bOk
  | Event.other => True

/-- The states that steps which do what they should can lead to, from any map without writes. -/
inductive Reached (N : ℕ) : State → Prop where
  /-- Nothing is queued yet. -/
  | start {parts : CPartMap} : parts.Ok N → Reached N ⟨parts, []⟩
  /-- A step. -/
  | step {s s' : State} {event : Event} : Reached N s → Meets N s event → Step N s event s' → Reached N s'

/-- The queued writes: they have bytes of the file, no two of them the same one, and these are cached and
not available. -/
structure Inv (N : ℕ) (s : State) : Prop where
  /-- The map covers the file. -/
  ok : s.parts.Ok N
  /-- A write has bytes, and ends in the file. -/
  writes : ∀ w ∈ s.pending, w.data ≠ [] ∧ w.offset + w.data.length ≤ N
  /-- A byte is written at most once. -/
  once : ∀ x, (queuedAt s.pending x).length ≤ 1
  /-- It is cached until then, and not available. -/
  flags : ∀ x < N, queuedAt s.pending x ≠ [] → cached s.parts x = true ∧ available s.parts x = false

theorem queuedAt_of_covers {writes : List CWriteOperation} {w : CWriteOperation} (hm : w ∈ writes) {x : ℕ}
    (hx : w.Covers x) : queuedAt writes x ≠ [] := by
  intro hnil
  have hnone := List.filterMap_eq_nil_iff.mp hnil w hm
  obtain ⟨h1, h2⟩ := hx
  rw [if_pos h1, List.getElem?_eq_none_iff] at hnone
  omega

theorem queuedAt_join (front back : List CWriteOperation) (x : ℕ) :
    queuedAt (front ++ back) x = queuedAt front x ++ queuedAt back x := List.filterMap_append

/-- Without one write the others are still queued, and the bytes of this one are not, if it was the only
one on them. -/
theorem queuedAt_remove {front back : List CWriteOperation} {w : CWriteOperation} {x : ℕ}
    (honce : (queuedAt (front ++ w :: back) x).length ≤ 1) : (w.Covers x → queuedAt (front ++ back) x = []) ∧
      (queuedAt (front ++ back) x).length ≤ (queuedAt (front ++ w :: back) x).length ∧
      (queuedAt (front ++ back) x ≠ [] → queuedAt (front ++ w :: back) x ≠ []) := by
  have hcons : queuedAt (w :: back) x =
      (if w.offset ≤ x then w.data[x - w.offset]? else none).toList ++ queuedAt back x := by
    rw [queuedAt, List.filterMap_cons]
    cases (if w.offset ≤ x then w.data[x - w.offset]? else none) <;> rfl
  rw [queuedAt_join, hcons, List.length_append, List.length_append] at honce
  rw [queuedAt_join, queuedAt_join, hcons, List.length_append, List.length_append, List.length_append]
  refine ⟨fun hx => ?_, by omega, fun hne hnil => hne ?_⟩
  · obtain ⟨h1, h2⟩ := hx
    rw [if_pos h1, List.getElem?_eq_getElem (show x - w.offset < w.data.length by omega),
      Option.toList_some, List.length_singleton] at honce
    rw [List.eq_nil_of_length_eq_zero (show (queuedAt front x).length = 0 by omega),
      List.eq_nil_of_length_eq_zero (show (queuedAt back x).length = 0 by omega), List.append_nil]
  · obtain ⟨hfront, hrest⟩ := List.append_eq_nil_iff.mp hnil
    rw [hfront, (List.append_eq_nil_iff.mp hrest).2, List.append_nil]

/-- Every step that does what it should keeps the writes apart, and does it. -/
theorem step_correct {s s' : State} {event : Event} (hi : Inv N s) (hmeets : Meets N s event)
    (hstep : Step N s event s') : Inv N s' ∧ Correct N s s' event := by
  cases hstep with
  | @received uBegin uEnd Data bComplete parts parts' writes hlt hto hrun hrel =>
    obtain ⟨parts₁, writes₁, hrun₁, hrec⟩ := rangeReceived_spec hi.ok hlt hto bComplete hmeets.1 hmeets.2
    obtain ⟨rfl, rfl⟩ := Prod.mk.inj (Option.some.inj (hrun.symm.trans hrun₁))
    have hpending : ∀ x < N, queuedAt s.pending x ≠ [] → had s.parts x = true := by
      intro x hx hne
      unfold had
      rw [(hi.flags x hx hne).1, Bool.or_true]
    have hpast : ∀ x, N ≤ x → queuedAt s.pending x = [] := fun x hx =>
      queuedAt_eq_nil fun w hm hin => by
        have hend := (hi.writes w hm).2
        have hlast := hin.2
        omega
    refine ⟨⟨hrel.ok, fun w hm => ?_, fun x => ?_, fun x hx hne => ?_⟩, parts, writes, rfl, hrec, hrel⟩
    · rcases List.mem_append.mp hm with hm | hm
      exacts [hi.writes w hm, hrec.writes w hm]
    · dsimp only
      rw [queuedAt_join, List.length_append]
      have honce := hi.once x
      by_cases hx : x < N
      · by_cases hhad : had s.parts x = true
        · rw [hrec.unqueued x (Or.inl hhad), List.length_nil]
          exact honce
        · have hnil : queuedAt s.pending x = [] := by
            by_contra hne
            exact hhad (hpending x hx hne)
          rw [hnil, List.length_nil, Nat.zero_add]
          by_cases hin : uBegin ≤ x ∧ x < uEnd
          · obtain ⟨byte, -, hq⟩ := hrec.queued x hx (Bool.eq_false_iff.mpr hhad) hin.1 hin.2
            rw [hq, List.length_singleton]
          · rw [hrec.unqueued x (Or.inr (Or.inl hin)), List.length_nil]
            exact Nat.zero_le _
      · rw [hrec.unqueued x (Or.inr (Or.inr (not_lt.mp hx))), List.length_nil]
        exact honce
    · dsimp only at hne
      obtain ⟨havail, hcache⟩ := hrel.flags x hx
      dsimp only
      rw [havail, hcache]
      by_cases hhad : had s.parts x = true
      · rw [queuedAt_join, hrec.unqueued x (Or.inl hhad), List.append_nil] at hne
        obtain ⟨h1, h2⟩ := hrec.kept x hx hhad
        obtain ⟨h3, h4⟩ := hi.flags x hx hne
        rw [h1, h2]
        exact ⟨h3, h4⟩
      · have hin : uBegin ≤ x ∧ x < uEnd := by
          by_contra hout
          rw [queuedAt_join, hrec.unqueued x (Or.inr (Or.inl hout)), List.append_nil] at hne
          exact hhad (hpending x hx hne)
        exact hrec.cached x hx (Bool.eq_false_iff.mpr hhad) hin.1 hin.2
  | @written front back w bOk hsplit =>
    have hm : w ∈ s.pending := by
      rw [hsplit]
      exact List.mem_append_right _ List.mem_cons_self
    obtain ⟨hne, hend⟩ := hi.writes w hm
    have hwritten := onDataWriten_spec hi.ok hne hend hmeets bOk
    have hremove : ∀ x, _ := fun x => queuedAt_remove (w := w) (hsplit ▸ hi.once x)
    refine ⟨⟨hwritten.ok, fun w' hm' => ?_, fun x => ?_, fun x hx hq => ?_⟩, hwritten, fun x hx => ?_⟩
    · refine hi.writes w' ?_
      rw [hsplit]
      rcases List.mem_append.mp hm' with hm' | hm'
      exacts [List.mem_append_left _ hm', List.mem_append_right _ (List.mem_cons_of_mem _ hm')]
    · have hle := (hremove x).2.1
      rw [← hsplit] at hle
      exact hle.trans (hi.once x)
    · have hout : ¬w.Covers x := fun hc => hq ((hremove x).1 hc)
      have hstate := hwritten.outside x hx hout
      have hold := (hremove x).2.2 hq
      rw [← hsplit] at hold
      unfold cached available
      dsimp only
      rw [hstate]
      exact hi.flags x hx hold
    · have hx' : x < N := lt_of_lt_of_le hx.2 hend
      exact hwritten.inside x hx (hi.flags x hx' (queuedAt_of_covers hm hx)).2
  | @other parts' helse =>
    refine ⟨⟨helse.ok, hi.writes, hi.once, fun x hx hne => ?_⟩, trivial⟩
    obtain ⟨h1, h2⟩ := helse.flags x hx hne
    dsimp only
    rw [h1, h2]
    exact hi.flags x hx hne

theorem inv_of_reached {s : State} (h : Reached N s) : Inv N s := by
  induction h with
  | start hok =>
    refine ⟨hok, fun w hm => ?_, fun _ => Nat.zero_le _, fun x _ hne => absurd rfl hne⟩
    cases hm
  | step _ hmeets hstep ih => exact (step_correct ih hmeets hstep).1

/-- The map of a file of ten bytes without any. -/
def tenBytes : State := ⟨CPartMap.single (CRangeMap.create partMapOps 10), []⟩

theorem reached_tenBytes : Reached 10 tenBytes :=
  Reached.start ⟨canonical_create _ (by decide), by decide⟩

end Runs

section Release

open TransferReservation

variable {N uBegin uEnd : ℕ}

/-- Reservations are taken back in a range: nothing changes around it, and no flag without a counter. -/
structure Freed (N uBegin uEnd : ℕ) (parts parts' : CRangeMap SPartRange) : Prop where
  /-- The map still covers the file. -/
  canonical : Canonical partMapOps N parts'
  /-- It is a later map. -/
  later : Later parts parts'
  /-- The bytes around the range stay as they are. -/
  outside : ∀ x, ¬(uBegin ≤ x ∧ x < uEnd) → stateAt partMapOps parts' x = stateAt partMapOps parts x
  /-- So do the flags. -/
  plain : ∀ x k, Plain k → bit (stateAt partMapOps parts' x) k = bit (stateAt partMapOps parts x) k

theorem freed_refl {parts : CRangeMap SPartRange} (h : Canonical partMapOps N parts) :
    Freed N uBegin uEnd parts parts :=
  ⟨h, later_refl _, fun _ _ => rfl, fun _ _ _ => rfl⟩

theorem Freed.trans {parts parts' parts'' : CRangeMap SPartRange} (h : Freed N uBegin uEnd parts parts')
    (h' : Freed N uBegin uEnd parts' parts'') : Freed N uBegin uEnd parts parts'' :=
  ⟨h'.canonical, h.later.trans h'.later, fun x hx => (h'.outside x hx).trans (h.outside x hx),
    fun x k hk => (h'.plain x k hk).trans (h.plain x k hk)⟩

/-- Taking back what a transfer holds on a range within the block. -/
theorem freed_unReserve {r : Reservation} (hf : Canonical partMapOps N r.fileParts) (hN : N < 2 ^ 64)
    {first last : ℕ} (hlt : first < last) (hend : last ≤ N) (hfrom : uBegin ≤ first) (hto : last ≤ uEnd)
    (v : BitVec 16) :
    Freed N uBegin uEnd r.fileParts (unReserveRange first last ((heldFlags v).setWidth 32) r).fileParts := by
  have hstate := stateAt_setRange hf hN hlt hend (SPartRange.ofStates ((heldFlags v).setWidth 32)) ESet.eClr
  have hheld : ∀ k, Plain k → ((heldFlags v).setWidth 32).getLsbD k = false := by
    have hmask : ∀ k < 16, (BitVec.ofNat 16 (Part.Scheduled ||| Part.Marked ||| Part.Requested)).getLsbD k = true →
        k = 4 ∨ k = 5 ∨ k = 10 := by decide
    intro k hk
    rw [BitVec.getLsbD_setWidth, heldFlags, BitVec.getLsbD_and, Bool.and_eq_false_imp]
    refine fun _ => Bool.and_eq_false_imp.mpr fun _ => Bool.eq_false_iff.mpr fun htrue => ?_
    have hflag := hmask k (BitVec.lt_of_getLsbD htrue) htrue
    obtain ⟨h4, h5, h10⟩ := hk
    omega
  refine ⟨setRange_canonical hf hN hlt hend _ _, later_setRange _ _ _ _ _,
    fun x hout => (hstate x).trans (if_neg (by omega)), fun x k hk => (congrArg (fun s => bit s k) (hstate x)).trans ?_⟩
  split_ifs
  · refine (bit_clr _ _ hk).trans ?_
    rw [hheld k hk, Bool.not_false, Bool.and_true]
  · rfl

/-- A transfer's map and the file's cover the file. -/
structure MapsOk (N : ℕ) (r : Reservation) : Prop where
  /-- The transfer's map. -/
  parts : Canonical shareMapOps N r.parts
  /-- The file's map. -/
  fileParts : Canonical partMapOps N r.fileParts

section Range

variable (hN : N < 2 ^ 64) (hlt : uBegin < uEnd) (hto : uEnd < 2 ^ 64)

include hN hlt hto

theorem releaseRange_freed {r : Reservation} (h : MapsOk N r) (bAll : Bool) :
    ∃ r', releaseRange uBegin uEnd bAll r = some r' ∧ MapsOk N r' ∧ Freed N uBegin uEnd r.fileParts r'.fileParts := by
  have hbody : BodyOk shareMapOps N Reservation.parts 0 (fun _ => true) (releaseBody bAll) uBegin uEnd
      fun _ r' => MapsOk N r' ∧ Freed N uBegin uEnd r.fileParts r'.fileParts := by
    rintro r' it ⟨hmaps, hfreed⟩ _ hat
    have hlt' := hat.lt
    unfold releaseBody
    split_ifs
    · have hheld := freed_unReserve hmaps.fileParts hN hlt' hat.uEnd_le hat.uFrom_le hat.le_uTo it.uState
      refine ⟨_, it.uEnd, rfl, hlt', le_rfl, later_setRange _ _ _ _ _, ⟨?_, hheld.canonical⟩, hfreed.trans hheld⟩
      exact setRange_canonical hmaps.parts hN hlt' hat.uEnd_le _ _
    · exact ⟨r', it.uEnd, rfl, hlt', le_rfl, later_refl _, hmaps, hfreed⟩
  obtain ⟨r', cur, hrun, hw, -⟩ := forRanges_spec hN hlt hto (fun _ _ hw => hw.1.parts) hbody
    ⟨h, freed_refl h.fileParts⟩
  exact ⟨r', hrun, hw⟩

/-- `ReleaseRange` only takes back reservations. -/
theorem releaseRange_released {r : Reservation} (h : MapsOk N r) (bAll : Bool) :
    ∃ r', releaseRange uBegin uEnd bAll r = some r' ∧ MapsOk N r' ∧
      Released N uBegin uEnd (CPartMap.single r.fileParts) (CPartMap.single r'.fileParts) := by
  obtain ⟨r', hrun, hmaps, hfreed⟩ := releaseRange_freed hN hlt hto h bAll
  have hplain : Plain 0 ∧ Plain 3 := ⟨⟨by decide, by decide, by decide⟩, by decide, by decide, by decide⟩
  exact ⟨r', hrun, hmaps, ⟨hfreed.canonical, hN⟩, fun x _ hout => hfreed.outside x hout,
    fun x _ => ⟨hfreed.plain x 0 hplain.1, hfreed.plain x 3 hplain.2⟩⟩

/-- The maps of the file and of its transfers cover the file. -/
structure FileOk (N : ℕ) (file : TransferReservation.CFile) : Prop where
  /-- The maps of the transfers. -/
  parts : ∀ t ∈ file.transfers, ∀ parts, t.parts = some parts → Canonical shareMapOps N parts
  /-- The file's map. -/
  fileParts : Canonical partMapOps N file.fileParts

/-- So does `CancelRequest`, for one transfer. -/
theorem cancelRequest_freed {file : TransferReservation.CFile} (h : FileOk N file) (i : ℕ) :
    ∃ file', onTransfer i (cancelRequest uBegin uEnd) file = some file' ∧ FileOk N file' ∧
      Freed N uBegin uEnd file.fileParts file'.fileParts := by
  unfold onTransfer
  cases ht : file.transfers[i]? with
  | none => exact ⟨file, rfl, h, freed_refl h.fileParts⟩
  | some t =>
    dsimp only
    cases hparts : t.parts with
    | none => exact ⟨file, rfl, h, freed_refl h.fileParts⟩
    | some parts =>
      have hmaps : MapsOk N ⟨parts, t.uReservedSize, t.bUnderflow, file.fileParts⟩ :=
        ⟨h.parts t (List.mem_of_getElem? ht) parts hparts, h.fileParts⟩
      have hrun : ∃ r', cancelRequest uBegin uEnd ⟨parts, t.uReservedSize, t.bUnderflow, file.fileParts⟩ = some r' ∧
          MapsOk N r' ∧ Freed N uBegin uEnd file.fileParts r'.fileParts := by
        unfold cancelRequest
        split_ifs
        · exact ⟨_, rfl, hmaps, freed_refl h.fileParts⟩
        · exact releaseRange_freed hN hlt hto hmaps true
      obtain ⟨r', hr, hmaps', hfreed⟩ := hrun
      dsimp only
      rw [hr, Option.map_some]
      refine ⟨_, rfl, ⟨fun other hother own hown => ?_, hmaps'.fileParts⟩, hfreed⟩
      rcases List.mem_or_eq_of_mem_set hother with hold | rfl
      · exact h.parts other hold own hown
      · exact Option.some.inj hown ▸ hmaps'.parts

theorem cancelRequests_freed (active : ℕ → Bool) (is : List ℕ) {file : TransferReservation.CFile}
    (h : FileOk N file) : ∃ file', cancelRequests active uBegin uEnd is file = some file' ∧ FileOk N file' ∧
      Freed N uBegin uEnd file.fileParts file'.fileParts := by
  induction is generalizing file with
  | nil => exact ⟨file, rfl, h, freed_refl h.fileParts⟩
  | cons i is ih =>
    rw [cancelRequests]
    split_ifs
    · obtain ⟨file', hrun, hok, hfreed⟩ := cancelRequest_freed hN hlt hto h i
      obtain ⟨file'', hrest, hok', hfreed'⟩ := ih hok
      rw [hrun]
      exact ⟨file'', hrest, hok', hfreed.trans hfreed'⟩
    · exact ih h

end Range

end Release

end NeoLoader.BlockWrites
