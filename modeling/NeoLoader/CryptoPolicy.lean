import NeoLoader.TorrentCrypto

/-!
# What the settings for encryption promise

An end works on the exchange until it is connected or the exchange has failed. Each case of the exchange keeps to one of
these three, and so does each event.
-/

namespace NeoLoader.CryptoPolicy

open TorrentCrypto KeyStream
open ECrypto

section Statement

/-- A method is among those that are offered. -/
def Offers (uProvide : ℕ) : Method → Prop
  | Method.eRC4 => uProvide &&& 0x02 ≠ 0
  | Method.eNone => uProvide &&& 0x01 ≠ 0
  | Method.eUndefined => False

/-- The settings permit a method. -/
def Permits (e : Encryption) : Method → Prop
  | Method.eRC4 => e.supportsCryptLayer = true
  | Method.eNone => e.requiresCryptLayer = false
  | Method.eUndefined => False

/-- The number that stands for a method. -/
def code : Method → ℕ
  | Method.eRC4 => 0x02
  | Method.eNone => 0x01
  | Method.eUndefined => 0

/-- A signal is emitted. -/
def IsEmitted : Output → Prop
  | Output.receivedHandshake _ => True
  | Output.receivedPacket _ => True
  | Output.connected => True
  | _ => False

/-- A handshake or a packet is plain: it is sent as it is, or parsed from bytes that were not decrypted. -/
def IsPlain : Output → Prop
  | Output.receivedHandshake Handshake => ∃ b ∈ Handshake, b.2 = false
  | Output.receivedPacket Packet => ∃ b ∈ Packet, b.2 = false
  | Output.payload Encrypted _ => Encrypted = false
  | _ => False

/-- A method was offered by the end that connects, and is one that the other end permits or selected. -/
def MethodRight (e : Encryption) (s : CTorrentSocket) : Prop :=
  s.m_CryptoMethod ≠ Method.eUndefined →
    (∃ uProvide, Output.readProvide uProvide ∈ s.m_Outputs ∧ Offers uProvide s.m_CryptoMethod ∧
      Permits e s.m_CryptoMethod) ∨
    Output.readSelect (code s.m_CryptoMethod) ∈ s.m_Outputs ∧ Offers e.provide s.m_CryptoMethod

/-- What is expected of a socket: its method is right, an end that requires encryption has nothing plain, and nothing
is emitted after the exchange has failed. -/
structure SocketRight (e : Encryption) (s : CTorrentSocket) : Prop where
  /-- The method is right. -/
  method : MethodRight e s
  /-- Nothing is plain if encryption is required. -/
  plain : e.requiresCryptLayer = true → ∀ o ∈ s.m_Outputs, ¬ IsPlain o
  /-- Nothing is emitted after the exchange has failed. -/
  failed : s.m_Outputs.Pairwise fun o o' => o = Output.disconnected SOCK_ERR_CRYPTO → ¬ IsEmitted o'

/-- The exchange has failed. -/
def Failed (s : CTorrentSocket) : Prop := Output.disconnected SOCK_ERR_CRYPTO ∈ s.m_Outputs

/-- The condition on a case of the exchange: an end that requires encryption gets no handshake in plain, and the method
that is selected was offered. -/
def CaseOk (e : Encryption) (s : CTorrentSocket) : Prop :=
  (s.m_CryptoState = eInit → e.requiresCryptLayer = true → PROTOCOL_ID.isPrefixOf (s.m_InBuffer.map Prod.fst) = false) ∧
    (s.m_CryptoState = eReadSelect → (s.uSelect = 0x02 → Offers e.provide Method.eRC4) ∧
      (s.uSelect = 0x01 → Offers e.provide Method.eNone))

variable (crypto : Crypto) (e : Encryption)

/-- The condition on cases that follow each other. -/
def CasesOk : ℕ → CTorrentSocket → Prop
  | 0, _ => True
  | n + 1, s => CaseOk e s ∧ ((processCase crypto e s).2 = true → CasesOk n (processCase crypto e s).1)

/-- The condition on an event: that on the cases of the exchange, fewer bytes than a handshake once the exchange has
failed, and that an end that requires encryption sends nothing before the exchange is over or after it has failed. -/
def EventOk (s : CTorrentSocket) : Event → Prop
  | Event.connected => True
  | Event.received Data =>
    ((s.streamIn Data).m_CryptoState ≠ eDone → CasesOk crypto e 5 (s.streamIn Data)) ∧
      (Failed (processExchange crypto e (s.streamIn Data)) →
        (processExchange crypto e (s.streamIn Data)).m_InBuffer.length < HAND_SHAKE_SIZE)
  | Event.sendHandshake _ =>
    e.requiresCryptLayer = true → s.m_CryptoState = eInit ∨ s.m_CryptoState = eDone ∧ ¬ Failed s
  | Event.sendPacket _ => e.requiresCryptLayer = true → s.m_CryptoState = eDone ∧ ¬ Failed s

/-- The sockets that there are after events that meet the condition. -/
inductive Reached : CTorrentSocket → Prop
  /-- An end that is connected to. -/
  | incoming : Reached CTorrentSocket.new
  /-- An end that connects, about a torrent that it knows. -/
  | outgoing {SupportsEncryption : Bool} {InfoHash Handshake : List UInt8} {s : CTorrentSocket}
      (hInfoHash : InfoHash ≠ []) (h : connect crypto e SupportsEncryption InfoHash Handshake = some s) : Reached s
  /-- An event. -/
  | step {s : CTorrentSocket} (event : Event) (hs : Reached s) (hok : EventOk crypto e s event) :
    Reached (s.step crypto e event)

end Statement

section Phases

variable {e : Encryption} {s : CTorrentSocket}

/-- The states in which there is a key. -/
def HasKey : ECrypto → Prop
  | eReadProvide => True
  | eEndProvide => True
  | eReadIA => True
  | eFindSelect => True
  | eReadSelect => True
  | eEndSelect => True
  | _ => False

/-- The states in which there is a method. -/
def HasMethod : ECrypto → Prop
  | eEndProvide => True
  | eReadIA => True
  | eEndSelect => True
  | _ => False

/-- A socket that works on the exchange. -/
structure Working (e : Encryption) (s : CTorrentSocket) : Prop extends SocketRight e s where
  /-- The exchange is not over. -/
  undone : s.m_CryptoState ≠ eDone
  /-- The exchange has not failed. -/
  unfailed : ¬ Failed s
  /-- No handshake was taken. -/
  waiting : s.m_NextPacketLength = 0
  /-- An end that connects and requires encryption has begun. -/
  begun : e.requiresCryptLayer = true → s.m_CryptoState = eInit → s.m_Outgoing = false
  /-- There is a key. -/
  keyed : HasKey s.m_CryptoState → s.m_CryptoKey ≠ none
  /-- There is a method. -/
  chosen : e.requiresCryptLayer = true → HasMethod s.m_CryptoState → s.m_CryptoMethod = Method.eRC4

/-- A socket of which the exchange has failed. -/
structure Broken (e : Encryption) (s : CTorrentSocket) : Prop extends SocketRight e s where
  /-- The exchange is over. -/
  done : s.m_CryptoState = eDone
  /-- The exchange has failed. -/
  hasFailed : Failed s
  /-- No handshake was taken. -/
  waiting : s.m_NextPacketLength = 0

/-- A socket that is connected. -/
structure Connected (e : Encryption) (s : CTorrentSocket) : Prop extends SocketRight e s where
  /-- The exchange is over. -/
  done : s.m_CryptoState = eDone
  /-- The exchange has not failed. -/
  unfailed : ¬ Failed s
  /-- If encryption is required then there is a key, and all bytes are decrypted. -/
  secure : e.requiresCryptLayer = true → s.m_CryptoKey ≠ none ∧ ∀ b ∈ s.m_InBuffer, b.2 = true

/-- The three phases of a socket. -/
inductive Phase (e : Encryption) (s : CTorrentSocket) : Prop
  | working (h : Working e s)
  | broken (h : Broken e s)
  | connected (h : Connected e s)

/-- An output that is neither plain, nor emitted, nor a failure. -/
def Quiet : Output → Prop
  | Output.sent _ => True
  | Output.readProvide _ => True
  | Output.readSelect _ => True
  | _ => False

variable {o : Output}

/-- A quiet output keeps a socket right, up to its method. -/
theorem SocketRight.output (h : SocketRight e s) (hplain : e.requiresCryptLayer = true → ¬ IsPlain o)
    (hemitted : Failed s → ¬ IsEmitted o) : SocketRight e (s.output o) where
  method hdefined := by
    rcases h.method hdefined with ⟨uProvide, hread, hright⟩ | ⟨hread, hoffers⟩
    · exact Or.inl ⟨uProvide, List.mem_append_left _ hread, hright⟩
    · exact Or.inr ⟨List.mem_append_left _ hread, hoffers⟩
  plain hrequires o' ho' := by
    rcases List.mem_append.mp ho' with hmem | hmem
    · exact h.plain hrequires o' hmem
    · obtain rfl := List.mem_singleton.mp hmem
      exact hplain hrequires
  failed := by
    refine List.pairwise_append.mpr ⟨h.failed, List.pairwise_singleton _ _, fun o' ho' o'' ho'' hfail => ?_⟩
    obtain rfl := List.mem_singleton.mp ho''
    have hfailed : Failed s := by
      rw [Failed, ← hfail]
      exact ho'
    exact hemitted hfailed

theorem failed_output : Failed (s.output o) ↔ Failed s ∨ o = Output.disconnected SOCK_ERR_CRYPTO := by
  rw [Failed, CTorrentSocket.output, List.mem_append, List.mem_singleton, eq_comm (a := o)]
  rfl

section

variable (h : Working e s)

include h

theorem Working.emit {o : Output} (hplain : e.requiresCryptLayer = true → ¬ IsPlain o)
    (hfails : o ≠ Output.disconnected SOCK_ERR_CRYPTO) : Working e (s.output o) where
  toSocketRight := h.toSocketRight.output hplain fun hfailed => absurd hfailed h.unfailed
  undone := h.undone
  unfailed hfailed := (failed_output.mp hfailed).elim h.unfailed hfails
  waiting := h.waiting
  begun := h.begun
  keyed := h.keyed
  chosen := h.chosen

theorem Working.output {o : Output} (ho : Quiet o) : Working e (s.output o) :=
  h.emit (fun _ hplain => by cases o <;> trivial) fun hfails => by
    rw [hfails] at ho
    exact ho

theorem Working.cryptoFailed : Broken e s.cryptoFailed where
  toSocketRight := by
    have hright := h.toSocketRight.output (o := Output.disconnected SOCK_ERR_CRYPTO) (fun _ => id) (fun _ => id)
    exact ⟨hright.method, hright.plain, hright.failed⟩
  done := rfl
  hasFailed := failed_output.mpr (Or.inr rfl)
  waiting := h.waiting

/-- A change of the buffer and the key keeps a socket at work. -/
theorem Working.change {s' : CTorrentSocket} (hstate : s'.m_CryptoState = s.m_CryptoState)
    (hmethod : s'.m_CryptoMethod = s.m_CryptoMethod) (hkey : s.m_CryptoKey ≠ none → s'.m_CryptoKey ≠ none)
    (hlength : s'.m_NextPacketLength = s.m_NextPacketLength) (houtgoing : s'.m_Outgoing = s.m_Outgoing)
    (houtputs : s'.m_Outputs = s.m_Outputs) : Working e s' := by
  obtain ⟨⟨hright, hplain, hfailed⟩, hundone, hunfailed, hwaiting, hbegun, hkeyed, hchosen⟩ := h
  refine ⟨⟨?_, ?_, ?_⟩, ?_, ?_, ?_, ?_, ?_, ?_⟩
  · rwa [MethodRight, hmethod, houtputs]
  · rwa [houtputs]
  · rwa [houtputs]
  · rwa [hstate]
  · rwa [Failed, houtputs]
  · rwa [hlength]
  · rwa [hstate, houtgoing]
  · rw [hstate]
    exact fun hhas => hkey (hkeyed hhas)
  · rwa [hstate, hmethod]

/-- The next state of the exchange. -/
theorem Working.enter {next : ECrypto} (hdone : next ≠ eDone) (hinit : next ≠ eInit)
    (hkey : HasKey next → s.m_CryptoKey ≠ none)
    (hmethod : e.requiresCryptLayer = true → HasMethod next → s.m_CryptoMethod = Method.eRC4) :
    Working e { s with m_CryptoState := next } where
  toSocketRight := ⟨h.method, h.plain, h.failed⟩
  undone := hdone
  unfailed := h.unfailed
  waiting := h.waiting
  begun _ hnext := absurd hnext hinit
  keyed := hkey
  chosen := hmethod

theorem Working.take {m : Method} (hright : MethodRight e { s with m_CryptoMethod := m })
    (hnone : ¬ HasMethod s.m_CryptoState) : Working e { s with m_CryptoMethod := m } where
  toSocketRight := ⟨hright, h.plain, h.failed⟩
  undone := h.undone
  unfailed := h.unfailed
  waiting := h.waiting
  begun := h.begun
  keyed := h.keyed
  chosen _ hmethod := absurd hmethod hnone

theorem Working.decrypt (place n : ℕ) : Working e (s.decrypt place n) := by
  rw [CTorrentSocket.decrypt]
  split
  · exact h
  · exact h.change rfl rfl (fun _ => by simp) rfl rfl rfl

theorem Working.shiftData (uOffset : ℕ) : Working e (s.shiftData uOffset) :=
  h.change rfl rfl id rfl rfl rfl

theorem Working.sendEncrypted (Data : List UInt8) : Working e (s.sendEncrypted Data) := by
  rw [CTorrentSocket.sendEncrypted]
  split
  · exact h
  · next out into hkey =>
    have hchanged : Working e { s with m_CryptoKey := some (out.discard Data.length, into) } :=
      h.change rfl rfl (fun _ => by simp) rfl rfl rfl
    exact hchanged.output (o := Output.sent (out.process Data)) trivial

end

variable (Data : List UInt8)

theorem sendEncrypted_key (h : s.m_CryptoKey ≠ none) : (s.sendEncrypted Data).m_CryptoKey ≠ none := by
  rw [CTorrentSocket.sendEncrypted]
  split
  · exact h
  · simp [CTorrentSocket.output]

theorem decrypt_frame (s : CTorrentSocket) (place n : ℕ) :
    (s.decrypt place n).m_CryptoState = s.m_CryptoState ∧ (s.decrypt place n).m_CryptoMethod = s.m_CryptoMethod ∧
      (s.decrypt place n).m_Outputs = s.m_Outputs ∧
        ((s.decrypt place n).m_CryptoKey = none ↔ s.m_CryptoKey = none) := by
  rw [CTorrentSocket.decrypt]
  split
  · exact ⟨rfl, rfl, rfl, Iff.rfl⟩
  · next hkey => exact ⟨rfl, rfl, rfl, by simp [hkey]⟩

/-- What is expected of a case: the socket is in one of the phases, and still at work if the next case follows. -/
def CaseRight (e : Encryption) (r : CTorrentSocket × Bool) : Prop := Phase e r.1 ∧ (r.2 = true → Working e r.1)

theorem Working.stay (h : Working e s) : CaseRight e (s, false) := ⟨Phase.working h, by simp⟩

theorem Working.go (h : Working e s) : CaseRight e (s, true) := ⟨Phase.working h, fun _ => h⟩

theorem Working.fail (h : Working e s) : CaseRight e (s.cryptoFailed, false) :=
  ⟨Phase.broken h.cryptoFailed, by simp⟩

variable {crypto : Crypto}

theorem caseInit_right (h : Working e s) (hok : CaseOk e s) (hstate : s.m_CryptoState = eInit) :
    CaseRight e (caseInit s) := by
  rw [caseInit]
  split_ifs with hshort hplain
  · exact h.stay
  · refine ⟨Phase.connected ⟨⟨h.method, h.plain, h.failed⟩, rfl, h.unfailed, fun hrequires => ?_⟩, by simp⟩
    rw [hok.1 hstate hrequires] at hplain
    exact absurd hplain (by simp)
  · exact (h.enter (by simp) (by simp) (by simp [HasKey]) (by simp [HasMethod])).go

theorem Working.answerKey (h : Working e s) : Working e (s.answerKey crypto) := by
  rw [CTorrentSocket.answerKey]
  split_ifs
  · exact h
  · have hsent : Working e (s.sendPaddedKey crypto) := h.output (o := Output.sent _) trivial
    exact hsent.enter (by simp) (by simp) (by simp [HasKey]) (by simp [HasMethod])

theorem Working.sendProvide (h : Working e s) :
    Working e (s.sendProvide crypto e) ∧ (s.sendProvide crypto e).m_CryptoKey ≠ none := by
  simp only [CTorrentSocket.sendProvide]
  refine ⟨Working.sendEncrypted (Working.sendEncrypted ?_ _) _,
    sendEncrypted_key _ (sendEncrypted_key _ (by simp [CTorrentSocket.setupRC4]))⟩
  have hmark : Working e (s.output (Output.sent (s.req1 crypto))) := h.output (o := Output.sent _) trivial
  have hhash := hmark.output
    (o := Output.sent (s.req3 crypto (crypto.sha1 ("req2".toUTF8.data.toList ++ s.m_InfoHash)))) trivial
  exact hhash.change rfl rfl (by simp [CTorrentSocket.setupRC4]) rfl rfl rfl

theorem caseExchangeKey_right (h : Working e s) : CaseRight e (caseExchangeKey crypto e s) := by
  have hanswer : ∀ TempKey : List UInt8,
      Working e { s.answerKey crypto with m_KeyExchange := false, m_TempKey := TempKey } :=
    fun _ => h.answerKey.change rfl rfl id rfl rfl rfl
  have hfails : Working e { s.answerKey crypto with m_KeyExchange := false } :=
    h.answerKey.change rfl rfl id rfl rfl rfl
  rw [caseExchangeKey]
  by_cases hshort : s.m_InBuffer.length < BT_DH_Size
  · rw [if_pos hshort]
    exact h.stay
  · rw [if_neg hshort]
    cases crypto.finaliseKeyExchange ((s.m_InBuffer.take BT_DH_Size).map Prod.fst) with
    | none => exact hfails.fail
    | some TempKey =>
      by_cases hfind : (s.answerKey crypto).m_CryptoState = eFindHash
      · simp only [if_pos hfind]
        exact (hanswer TempKey).stay
      · simp only [if_neg hfind]
        obtain ⟨hsend, hkey⟩ := @Working.sendProvide e _ crypto (hanswer TempKey)
        exact (hsend.enter (by simp) (by simp) (fun _ => hkey) (by simp [HasMethod])).stay

theorem findSyncMark_cases (s : CTorrentSocket) :
    s.findSyncMark = (s.cryptoFailed, false) ∨ s.findSyncMark = (s, false) ∨
      ∃ n, s.findSyncMark = (s.shiftData n, true) := by
  rw [CTorrentSocket.findSyncMark]
  cases indexOf (s.m_InBuffer.map Prod.fst) s.m_SyncMark with
  | none =>
    dsimp only
    split_ifs <;> simp
  | some Index => exact Or.inr (Or.inr ⟨_, rfl⟩)

theorem findThen_right (h : Working e s) {next : ECrypto} (hdone : next ≠ eDone) (hinit : next ≠ eInit)
    (hkey : HasKey next → s.m_CryptoKey ≠ none) (hmethod : ¬ HasMethod next) : CaseRight e (findThen next s) := by
  rw [findThen]
  rcases findSyncMark_cases s with hfind | hfind | ⟨n, hfind⟩
  · simp only [hfind, Bool.false_eq_true, if_false]
    exact h.fail
  · simp only [hfind, Bool.false_eq_true, if_false]
    exact h.stay
  · simp only [hfind, if_true]
    exact ((h.shiftData n).enter hdone hinit hkey fun _ hhas => absurd hhas hmethod).go

theorem caseFindHash_right (h : Working e s) : CaseRight e (caseFindHash crypto s) := by
  refine findThen_right ?_ (by simp) (by simp) (by simp [HasKey]) (by simp [HasMethod])
  split_ifs
  · exact h.change rfl rfl id rfl rfl rfl
  · exact h

theorem caseReadHash_right (h : Working e s) : CaseRight e (caseReadHash crypto s) := by
  have htake : ∀ InfoHash : List UInt8, Working e { s.shiftData 20 with m_InfoHash := InfoHash } :=
    fun _ => (h.shiftData 20).change rfl rfl id rfl rfl rfl
  have hsetup : ∀ InfoHash : List UInt8,
      Working e ({ s.shiftData 20 with m_InfoHash := InfoHash }.setupRC4 crypto false) :=
    fun InfoHash => (htake InfoHash).change rfl rfl (by simp [CTorrentSocket.setupRC4]) rfl rfl rfl
  rw [caseReadHash]
  split_ifs
  · exact h.stay
  · exact (htake []).fail
  · exact ((hsetup _).enter (by simp) (by simp) (by simp [CTorrentSocket.setupRC4]) (by simp [HasMethod])).go

/-- A method that an end selects was offered and is permitted. -/
theorem offers_of_select {uProvide uSelect : ℕ} {m : Method} (h : e.select uProvide = some (m, uSelect)) :
    Offers uProvide m ∧ Permits e m ∧ uSelect = code m := by
  rw [Encryption.select] at h
  split_ifs at h with hrc4 hnone
  · cases h
    simp only [Bool.and_eq_true, decide_eq_true_eq] at hrc4
    refine ⟨hrc4.2, ?_, rfl⟩
    cases e <;> simp_all [Permits, Encryption.requestsCryptLayer, Encryption.supportsCryptLayer]
  · cases h
    simp only [Bool.and_eq_true, decide_eq_true_eq, Bool.not_eq_true'] at hnone
    exact ⟨hnone.2, hnone.1, rfl⟩

theorem sendEncrypted_method : (s.sendEncrypted Data).m_CryptoMethod = s.m_CryptoMethod := by
  rw [CTorrentSocket.sendEncrypted]
  split <;> rfl

theorem Working.takeProvide (h : Working e s) : Working e s.takeProvide :=
  ((h.decrypt _ _).shiftData _).output (o := Output.readProvide _) trivial

theorem caseReadProvide_right (h : Working e s) (hstate : s.m_CryptoState = eReadProvide) :
    CaseRight e (caseReadProvide crypto e s) := by
  have hkey : s.m_CryptoKey ≠ none := h.keyed (by simp [hstate, HasKey])
  obtain ⟨hsame, -, -, hkeyed⟩ := decrypt_frame s 0 (8 + 4 + 2)
  rw [caseReadProvide]
  by_cases hshort : s.m_InBuffer.length < 8 + 4 + 2
  · rw [if_pos hshort]
    exact h.stay
  rw [if_neg hshort]
  by_cases hzero : (s.decrypt 0 (8 + 4 + 2)).readValue 0 8 ≠ 0
  · rw [if_pos hzero]
    exact (h.decrypt _ _).fail
  rw [if_neg hzero]
  cases hselect : e.select ((s.decrypt 0 (8 + 4 + 2)).readValue 8 4) with
  | none => exact h.takeProvide.fail
  | some select =>
    obtain ⟨m, uSelect⟩ := select
    obtain ⟨hoffers, hpermits, -⟩ := offers_of_select hselect
    have htaken : Working e { s.takeProvide with m_CryptoMethod := m } := by
      refine h.takeProvide.take (fun _ => Or.inl ⟨_, ?_, hoffers, hpermits⟩) ?_
      · exact List.mem_append_right _ (List.mem_singleton_self _)
      · have hwas : s.takeProvide.m_CryptoState = eReadProvide := hsame.trans hstate
        simp [hwas, HasMethod]
    have hthere : ({ s.takeProvide with m_CryptoMethod := m } : CTorrentSocket).m_CryptoKey ≠ none :=
      fun hnone => hkey (hkeyed.mp hnone)
    refine ((htaken.sendEncrypted _).enter (by simp) (by simp) (fun _ => sendEncrypted_key _ hthere) ?_).go
    intro hrequires _
    rw [sendEncrypted_method]
    cases m <;> simp_all [Permits]

theorem caseEndProvide_right (h : Working e s) (hstate : s.m_CryptoState = eEndProvide) :
    CaseRight e (caseEndProvide s) := by
  obtain ⟨-, hmethod, -, hkeyed⟩ := decrypt_frame s 2 (s.readValue 0 2 + 2)
  rw [caseEndProvide]
  split_ifs
  · exact h.stay
  · refine (((h.decrypt _ _).shiftData _).enter (by simp) (by simp) (fun _ hnone => ?_) fun hrequires _ => ?_).go
    · exact h.keyed (by simp [hstate, HasKey]) (hkeyed.mp hnone)
    · exact hmethod.trans (h.chosen hrequires (by simp [hstate, HasMethod]))

/-- Bytes at the beginning of the buffer that were decrypted. -/
theorem decrypt_take (h : s.m_CryptoKey ≠ none) (n : ℕ) : ∀ b ∈ (s.decrypt 0 n).m_InBuffer.take n, b.2 = true := by
  obtain ⟨⟨out, into⟩, hkey⟩ := Option.ne_none_iff_exists'.mp h
  intro b hb
  simp only [CTorrentSocket.decrypt, hkey, List.take_zero, List.nil_append, List.drop_zero, Nat.zero_add,
    List.take_append, List.length_map, Cipher.length_process, List.length_take, List.mem_append] at hb
  rcases hb with hb | hb
  · obtain ⟨a, -, rfl⟩ := List.mem_map.mp (List.mem_of_mem_take hb)
    rfl
  · rcases Nat.le_total n s.m_InBuffer.length with hle | hle
    · simp [hle] at hb
    · simp [List.drop_eq_nil_of_le hle] at hb

/-- The end of the exchange: all bytes are decrypted if encryption is required. -/
theorem Working.finishCrypto (h : Working e s) {Offset : ℕ} (hkey : s.m_CryptoKey ≠ none)
    (hmethod : e.requiresCryptLayer = true → s.m_CryptoMethod = Method.eRC4)
    (htake : ∀ b ∈ s.m_InBuffer.take Offset, b.2 = true) :
    Connected e { s.finishCrypto Offset with m_CryptoState := eDone } := by
  obtain ⟨⟨out, into⟩, hsome⟩ := Option.ne_none_iff_exists'.mp hkey
  rw [CTorrentSocket.finishCrypto]
  split_ifs with hnone
  · refine ⟨⟨h.method, h.plain, h.failed⟩, rfl, h.unfailed, fun hrequires => ?_⟩
    rw [hmethod hrequires] at hnone
    cases hnone
  · have hdecrypt : Working e (s.decrypt Offset (s.m_InBuffer.length - Offset)) := h.decrypt _ _
    refine ⟨⟨hdecrypt.method, hdecrypt.plain, hdecrypt.failed⟩, rfl, hdecrypt.unfailed, fun _ => ⟨?_, ?_⟩⟩
    · simp [CTorrentSocket.decrypt, hsome]
    · intro b hb
      simp only [CTorrentSocket.decrypt, hsome, List.mem_append] at hb
      rcases hb with (hb | hb) | hb
      · exact htake b hb
      · obtain ⟨a, -, rfl⟩ := List.mem_map.mp hb
        rfl
      · rw [List.drop_eq_nil_of_le (by omega)] at hb
        cases hb

theorem caseReadIA_right (h : Working e s) (hstate : s.m_CryptoState = eReadIA) : CaseRight e (caseReadIA s) := by
  have hkey : s.m_CryptoKey ≠ none := h.keyed (by simp [hstate, HasKey])
  obtain ⟨-, hmethod, -, hkeyed⟩ := decrypt_frame (s.shiftData 2) 0 (s.readValue 0 2)
  rw [caseReadIA]
  split_ifs
  · exact h.stay
  · refine ⟨Phase.connected (((h.shiftData 2).decrypt 0 _).finishCrypto (fun hnone => hkey (hkeyed.mp hnone))
      (fun hrequires => ?_) (decrypt_take (s := s.shiftData 2) hkey _)), by simp⟩
    exact hmethod.trans (h.chosen hrequires (by simp [hstate, HasMethod]))

theorem caseFindSelect_right (h : Working e s) (hstate : s.m_CryptoState = eFindSelect) :
    CaseRight e (caseFindSelect s) := by
  have hkey : s.m_CryptoKey ≠ none := h.keyed (by simp [hstate, HasKey])
  obtain ⟨⟨out, into⟩, hsome⟩ := Option.ne_none_iff_exists'.mp hkey
  rw [caseFindSelect]
  split_ifs
  · refine findThen_right ?_ (by simp) (by simp) (fun _ => ?_) (by simp [HasMethod])
    · rw [CTorrentSocket.selectMark, hsome]
      exact h.change rfl rfl (fun _ => by simp) rfl rfl rfl
    · simp [CTorrentSocket.selectMark, hsome]
  · exact findThen_right h (by simp) (by simp) (fun _ => hkey) (by simp [HasMethod])

theorem not_offers_none (h : e.requiresCryptLayer = true) : ¬ Offers e.provide Method.eNone := by
  simp [Offers, Encryption.provide, h]

/-- The method that the other end selects is taken. -/
theorem Working.takeSelect (h : Working e s) (hstate : s.m_CryptoState = eReadSelect) {m : Method}
    (hselect : s.uSelect = code m) (hoffers : Offers e.provide m) :
    Working e { s.takeSelect.shiftData 4 with m_CryptoMethod := m, m_CryptoState := eEndSelect } := by
  obtain ⟨hsame, -, -, hkeyed⟩ := decrypt_frame s 0 (4 + 2)
  have hread : Working e s.takeSelect := (h.decrypt _ _).output (o := Output.readSelect _) trivial
  have htaken : Working e { s.takeSelect.shiftData 4 with m_CryptoMethod := m } := by
    refine (hread.shiftData 4).take (fun _ => Or.inr ⟨?_, hoffers⟩) ?_
    · rw [← hselect]
      exact List.mem_append_right _ (List.mem_singleton_self _)
    · have hwas : (s.takeSelect.shiftData 4).m_CryptoState = eReadSelect := hsame.trans hstate
      simp [hwas, HasMethod]
  refine htaken.enter (by simp) (by simp) (fun _ hnone => ?_) fun hrequires _ => ?_
  · exact h.keyed (by simp [hstate, HasKey]) (hkeyed.mp hnone)
  · cases m with
    | eRC4 => rfl
    | eNone => exact absurd hoffers (not_offers_none hrequires)
    | eUndefined => exact absurd hoffers id

theorem caseReadSelect_right (h : Working e s) (hok : CaseOk e s) (hstate : s.m_CryptoState = eReadSelect) :
    CaseRight e (caseReadSelect s) := by
  have hread : Working e s.takeSelect := (h.decrypt _ _).output (o := Output.readSelect _) trivial
  obtain ⟨hrc4, hnone⟩ := hok.2 hstate
  rw [caseReadSelect]
  split_ifs with hshort htwo hone
  · exact h.stay
  · exact (h.takeSelect (m := Method.eRC4) hstate htwo (hrc4 htwo)).go
  · exact (h.takeSelect (m := Method.eNone) hstate hone (hnone hone)).go
  · exact hread.fail

theorem Connected.output (h : Connected e s) (hplain : e.requiresCryptLayer = true → ¬ IsPlain o)
    (hfails : o ≠ Output.disconnected SOCK_ERR_CRYPTO) : Connected e (s.output o) where
  toSocketRight := h.toSocketRight.output hplain fun hfailed => absurd hfailed h.unfailed
  done := h.done
  unfailed hfailed := (failed_output.mp hfailed).elim h.unfailed hfails
  secure := h.secure

theorem caseEndSelect_right (h : Working e s) (hstate : s.m_CryptoState = eEndSelect) :
    CaseRight e (caseEndSelect s) := by
  have hkey : s.m_CryptoKey ≠ none := h.keyed (by simp [hstate, HasKey])
  obtain ⟨-, hmethod, -, hkeyed⟩ := decrypt_frame s 2 (s.readValue 0 2)
  rw [caseEndSelect]
  split_ifs
  · exact h.stay
  · have hfinished := @Working.finishCrypto e _ ((h.decrypt 2 (s.readValue 0 2)).shiftData (2 + s.readValue 0 2))
      0 (fun hnone => hkey (hkeyed.mp hnone))
      (fun hrequires => hmethod.trans (h.chosen hrequires (by simp [hstate, HasMethod]))) (by simp)
    exact ⟨Phase.connected (hfinished.output (o := Output.connected) (fun _ => id) (by simp)), by simp⟩

/-- Each case keeps a socket in one of the phases. -/
theorem processCase_right (h : Working e s) (hok : CaseOk e s) : CaseRight e (processCase crypto e s) := by
  rw [processCase]
  cases hstate : s.m_CryptoState with
  | eInit => exact caseInit_right h hok hstate
  | eExchangeKey => exact caseExchangeKey_right h
  | eFindHash => exact caseFindHash_right h
  | eReadHash => exact caseReadHash_right h
  | eReadProvide => exact caseReadProvide_right h hstate
  | eEndProvide => exact caseEndProvide_right h hstate
  | eReadIA => exact caseReadIA_right h hstate
  | eFindSelect => exact caseFindSelect_right h hstate
  | eReadSelect => exact caseReadSelect_right h hok hstate
  | eEndSelect => exact caseEndSelect_right h hstate
  | eDone => exact absurd hstate h.undone

theorem processCases_right (n : ℕ) (h : Working e s) (hok : CasesOk crypto e n s) :
    Phase e (processCases crypto e n s) := by
  induction n generalizing s with
  | zero => exact Phase.working h
  | succ n ih =>
    obtain ⟨hphase, hnext⟩ := @processCase_right e s crypto h hok.1
    rw [processCases]
    split_ifs with hgo
    · exact ih (hnext hgo) (hok.2 hgo)
    · exact hphase

theorem Broken.output (h : Broken e s) (hplain : e.requiresCryptLayer = true → ¬ IsPlain o)
    (hemitted : ¬ IsEmitted o) : Broken e (s.output o) where
  toSocketRight := h.toSocketRight.output hplain fun _ => hemitted
  done := h.done
  hasFailed := failed_output.mpr (Or.inl h.hasFailed)
  waiting := h.waiting

theorem Broken.change (h : Broken e s) (key : Option (Cipher × Cipher)) (buffer : List (UInt8 × Bool)) :
    Broken e { s with m_InBuffer := buffer, m_CryptoKey := key } where
  toSocketRight := ⟨h.method, h.plain, h.failed⟩
  done := h.done
  hasFailed := h.hasFailed
  waiting := h.waiting

/-- A change of the key and the buffer keeps a socket connected if the bytes are decrypted. -/
theorem Connected.change (h : Connected e s) {key : Option (Cipher × Cipher)} {buffer : List (UInt8 × Bool)}
    {uPosition NextPacketLength : ℕ}
    (hsecure : e.requiresCryptLayer = true → key ≠ none ∧ ∀ b ∈ buffer, b.2 = true) :
    Connected e { s with
      m_InBuffer := buffer
      m_CryptoKey := key
      m_uPosition := uPosition
      m_NextPacketLength := NextPacketLength } where
  toSocketRight := ⟨h.method, h.plain, h.failed⟩
  done := h.done
  unfailed := h.unfailed
  secure := hsecure

/-- Bytes that are received keep a socket in its phase. -/
theorem Phase.streamIn (h : Phase e s) (Data : List UInt8) : Phase e (s.streamIn Data) := by
  rw [CTorrentSocket.streamIn]
  split
  · next out into hkey hdone =>
    rcases h with h | h | h
    · exact absurd hdone h.undone
    · exact Phase.broken (h.change _ _)
    · refine Phase.connected (h.change fun hrequires => ⟨by simp, fun b hb => ?_⟩)
      rcases List.mem_append.mp hb with hb | hb
      · exact (h.secure hrequires).2 b hb
      · obtain ⟨a, -, rfl⟩ := List.mem_map.mp hb
        rfl
  · next hnot =>
    rcases h with h | h | h
    · exact Phase.working (h.change rfl rfl id rfl rfl rfl)
    · exact Phase.broken (h.change _ _)
    · refine Phase.connected (h.change fun hrequires => ?_)
      obtain ⟨⟨out, into⟩, hkey⟩ := Option.ne_none_iff_exists'.mp (h.secure hrequires).1
      exact (hnot out into hkey h.done).elim

theorem Phase.processExchange (h : Phase e s) (hok : s.m_CryptoState ≠ eDone → CasesOk crypto e 5 s) :
    Phase e (processExchange crypto e s) := by
  rw [TorrentCrypto.processExchange]
  split_ifs with hundone
  · rcases h with h | h | h
    · exact processCases_right 5 h (hok hundone)
    · exact absurd h.done hundone
    · exact absurd h.done hundone
  · exact h

theorem Connected.takeHandshake (h : Connected e s) : Connected e (takeHandshake s).1 := by
  rw [TorrentCrypto.takeHandshake]
  split_ifs
  · exact h
  · refine (h.output (o := Output.receivedHandshake _) (fun hrequires hplain => ?_) (by simp)).change
      fun hrequires => ⟨(h.secure hrequires).1, fun b hb => (h.secure hrequires).2 b (List.mem_of_mem_drop hb)⟩
    obtain ⟨b, hb, hfalse⟩ := hplain
    rw [(h.secure hrequires).2 b (List.mem_of_mem_drop (List.mem_of_mem_take hb))] at hfalse
    cases hfalse
  · exact h

theorem Connected.takeLength (h : Connected e s) : Connected e (takeLength s).1 := by
  have hread : Connected e s.readLength := h.change h.secure
  rw [TorrentCrypto.takeLength]
  split_ifs
  · exact h
  · exact hread.output (o := Output.disconnected _) (fun _ => id) (by simp [SOCK_ERR_OVERSIZED, SOCK_ERR_CRYPTO])
  · exact hread
  · exact h

theorem Connected.readPacket (h : Connected e s) : Connected e s.readPacket := by
  refine (h.output (o := Output.receivedPacket _) (fun hrequires hplain => ?_) (by simp)).change
    fun hrequires => ⟨(h.secure hrequires).1, fun b hb => (h.secure hrequires).2 b (List.mem_of_mem_drop hb)⟩
  obtain ⟨b, hb, hfalse⟩ := hplain
  rw [(h.secure hrequires).2 b (List.mem_of_mem_drop (List.mem_of_mem_take hb))] at hfalse
  cases hfalse

/-- The packets keep a socket connected. -/
theorem Connected.takePackets (h : Connected e s) : Connected e (takePackets s) := by
  have hpacket : ∀ {s : CTorrentSocket}, Connected e s → Connected e (takePacket s).1 := by
    intro s h
    rw [takePacket]
    split_ifs
    · exact h.takeLength.readPacket
    · exact h.takeLength
  induction s using TorrentCrypto.takePackets.induct with
  | case1 s hmore ih =>
    rw [TorrentCrypto.takePackets, dif_pos hmore]
    exact ih (hpacket h)
  | case2 s hend =>
    rw [TorrentCrypto.takePackets, dif_neg hend]
    exact hpacket h

/-- What `ProcessStream` does once the exchange is over keeps a socket in its phase. -/
theorem Phase.takeStream (h : Phase e s) (hdone : s.m_CryptoState = eDone)
    (hshort : Failed s → s.m_InBuffer.length < HAND_SHAKE_SIZE) : Phase e (takeStream s) := by
  rw [TorrentCrypto.takeStream]
  rcases h with h | h | h
  · exact absurd hdone h.undone
  · have hnothing : takeHandshake s = (s, false) := by
      rw [takeHandshake, if_pos h.waiting, if_pos (hshort h.hasFailed)]
    simp only [hnothing, Bool.false_eq_true, if_false]
    exact Phase.broken h
  · split_ifs
    · exact Phase.connected h.takeHandshake.takePackets
    · exact Phase.connected h.takeHandshake

/-- Bytes that are sent keep a socket in its phase. -/
theorem Phase.streamOut (h : Phase e s) (Data : List UInt8)
    (hsecure : e.requiresCryptLayer = true → s.m_CryptoState = eDone ∧ ¬ Failed s) : Phase e (s.streamOut Data) := by
  rw [CTorrentSocket.streamOut]
  split
  · next out into hkey hdone =>
    rcases h with h | h | h
    · exact absurd hdone h.undone
    · exact Phase.broken ((h.change _ _).output (o := Output.payload true _) (by simp [IsPlain]) id)
    · exact Phase.connected ((h.change fun hrequires => ⟨by simp, (h.secure hrequires).2⟩).output
        (o := Output.payload true _) (by simp [IsPlain]) (by simp))
  · next hnot =>
    rcases h with h | h | h
    · exact Phase.working (h.emit (fun hrequires => absurd (hsecure hrequires).1 h.undone) (by simp))
    · exact Phase.broken (h.output (fun hrequires => absurd h.hasFailed (hsecure hrequires).2) id)
    · refine Phase.connected (h.output (fun hrequires => ?_) (by simp))
      obtain ⟨⟨out, into⟩, hkey⟩ := Option.ne_none_iff_exists'.mp (h.secure hrequires).1
      exact (hnot out into hkey h.done).elim

theorem streamOut_frame :
    (s.streamOut Data).m_CryptoState = s.m_CryptoState ∧ (Failed (s.streamOut Data) ↔ Failed s) := by
  rw [CTorrentSocket.streamOut]
  split
  · next hdone => exact ⟨rfl, failed_output.trans (by simp [Failed])⟩
  · exact ⟨rfl, failed_output.trans (by simp)⟩

/-- The connection keeps a socket in one of the phases. -/
theorem Phase.onConnected (h : Phase e s) : Phase e s.onConnected := by
  rw [CTorrentSocket.onConnected]
  split_ifs with hbegin
  · rcases h with h | h | h
    · have hfinished : Connected e { s with m_CryptoState := eDone } := by
        refine ⟨⟨h.method, h.plain, h.failed⟩, rfl, h.unfailed, fun hrequires => ?_⟩
        rw [h.begun hrequires hbegin.2] at hbegin
        exact absurd hbegin.1 (by simp)
      exact Phase.connected (hfinished.output (o := Output.connected) (fun _ => id) (by simp))
    · exact absurd (h.done.symm.trans hbegin.2) (by simp)
    · exact absurd (h.done.symm.trans hbegin.2) (by simp)
  · exact h

theorem Phase.sendHandshake (h : Phase e s) (Handshake : List UInt8)
    (hok : EventOk crypto e s (Event.sendHandshake Handshake)) : Phase e (s.sendHandshake Handshake) := by
  rw [CTorrentSocket.sendHandshake]
  split_ifs with hinit
  · rcases h with h | h | h
    · exact Phase.working (h.change rfl rfl id rfl rfl rfl)
    · exact absurd (h.done.symm.trans hinit) (by simp)
    · exact absurd (h.done.symm.trans hinit) (by simp)
  · exact h.streamOut Handshake fun hrequires => (hok hrequires).resolve_left hinit

/-- An event keeps a socket in one of the phases. -/
theorem Phase.step (h : Phase e s) {event : Event} (hok : EventOk crypto e s event) :
    Phase e (s.step crypto e event) := by
  cases event with
  | connected => exact h.onConnected
  | received Data =>
    obtain ⟨hcases, hshort⟩ := hok
    have hexchange := (h.streamIn Data).processExchange hcases
    simp only [CTorrentSocket.step, processStream]
    split_ifs with hundone
    · exact hexchange
    · exact hexchange.takeStream (not_not.mp hundone) hshort
  | sendHandshake Handshake => exact h.sendHandshake Handshake hok
  | sendPacket Packet =>
    obtain ⟨hstate, hfailed⟩ := streamOut_frame (s := s) (bigEndian 4 Packet.length)
    refine (h.streamOut _ hok).streamOut _ fun hrequires => ?_
    rw [hstate, hfailed]
    exact hok hrequires

/-- A socket that has done nothing yet is at work. -/
theorem working_of_nothing (houtputs : s.m_Outputs = []) (hmethod : s.m_CryptoMethod = Method.eUndefined)
    (hwaiting : s.m_NextPacketLength = 0) (hstate : s.m_CryptoState = eInit ∨ s.m_CryptoState = eExchangeKey)
    (hbegun : e.requiresCryptLayer = true → s.m_CryptoState = eInit → s.m_Outgoing = false) : Working e s where
  method hdefined := absurd hmethod hdefined
  plain := by simp [houtputs]
  failed := by simp [houtputs]
  undone := by rcases hstate with hstate | hstate <;> simp [hstate]
  unfailed := by simp [Failed, houtputs]
  waiting := hwaiting
  begun := hbegun
  keyed := by rcases hstate with hstate | hstate <;> simp [hstate, HasKey]
  chosen := by rcases hstate with hstate | hstate <;> simp [hstate, HasMethod]

theorem working_new : Working e CTorrentSocket.new :=
  working_of_nothing rfl rfl rfl (Or.inl rfl) fun _ _ => rfl

/-- An end that connects is at work. -/
theorem working_connect {SupportsEncryption : Bool} {InfoHash Handshake : List UInt8} (hInfoHash : InfoHash ≠ [])
    (h : connect crypto e SupportsEncryption InfoHash Handshake = some s) : Working e s := by
  rw [connect] at h
  split_ifs at h with hsupports hrequires
  · obtain rfl := Option.some.inj h
    have hbegun : Working e { CTorrentSocket.new with
        m_Outgoing := true
        m_Atomic := Handshake
        m_InfoHash := InfoHash
        m_KeyExchange := true
        m_CryptoState := eExchangeKey } := working_of_nothing rfl rfl rfl (Or.inr rfl) (by simp)
    simp only [CTorrentSocket.initCrypto, if_neg hInfoHash]
    exact hbegun.output (o := Output.sent _) trivial
  · obtain rfl := Option.some.inj h
    exact working_of_nothing rfl rfl rfl (Or.inl rfl) fun hrequired => absurd hrequired hrequires

theorem Reached.phase (h : Reached crypto e s) : Phase e s := by
  induction h with
  | incoming => exact Phase.working working_new
  | outgoing hInfoHash h => exact Phase.working (working_connect hInfoHash h)
  | step event hs hok ih => exact ih.step hok

theorem Phase.right (h : Phase e s) : SocketRight e s := by
  rcases h with h | h | h
  · exact h.toSocketRight
  · exact h.toSocketRight
  · exact h.toSocketRight

end Phases

section Results

variable {crypto : Crypto} {e : Encryption} {s : CTorrentSocket}

/-- Algorithms without secrets. -/
def openCrypto (TempKey : Option (List UInt8)) : Crypto where
  publicKey := []
  finaliseKeyExchange _ := TempKey
  sha1 _ := []
  rc4 _ := ⟨fun _ => 0, 0⟩
  getInfoHash _ := []
  padding _ := []

/-- A few bytes, of which it is not known yet whether they are plain, meet the condition. -/
theorem eventOk_of_few {Data : List UInt8} (hstate : s.m_CryptoState = eInit)
    (hfew : s.m_InBuffer.length + Data.length < 1 + 19) (hunfailed : ¬ Failed s) :
    EventOk crypto e s (Event.received Data) := by
  have hstream : s.streamIn Data = { s with m_InBuffer := s.m_InBuffer ++ Data.map (fun b => (b, false)) } := by
    rw [CTorrentSocket.streamIn]
    split
    · next hdone => exact absurd (hstate.symm.trans hdone) (by simp)
    · rfl
  have hshort : (s.streamIn Data).m_InBuffer.length < 1 + 19 := by simpa [hstream] using hfew
  have hinit : (s.streamIn Data).m_CryptoState = eInit := by simp [hstream, hstate]
  have hwait : processCase crypto e (s.streamIn Data) = (s.streamIn Data, false) := by
    simp only [processCase, hinit, caseInit, if_pos hshort]
  have hplain : PROTOCOL_ID.isPrefixOf ((s.streamIn Data).m_InBuffer.map Prod.fst) = false := by
    refine Bool.eq_false_iff.mpr fun hprefix => ?_
    have hlength := (List.isPrefixOf_iff_prefix.mp hprefix).length_le
    have htwenty : PROTOCOL_ID.length = 1 + 19 := by decide
    rw [htwenty, List.length_map] at hlength
    omega
  have hexchange : TorrentCrypto.processExchange crypto e (s.streamIn Data) = s.streamIn Data := by
    simp [TorrentCrypto.processExchange, processCrypto, processCases, hwait]
  refine ⟨fun _ => ⟨⟨fun _ _ => hplain, by simp [hinit]⟩, by simp [hwait]⟩, fun hfailed => ?_⟩
  rw [hexchange, hstream] at hfailed
  exact absurd hfailed hunfailed

/-- The packets come after what a socket did before. -/
theorem prefix_takePackets (s : CTorrentSocket) : s.m_Outputs <+: (takePackets s).m_Outputs := by
  have hlength : ∀ s : CTorrentSocket, s.m_Outputs <+: (takeLength s).1.m_Outputs := by
    intro s
    rw [takeLength]
    split_ifs
    · exact List.prefix_rfl
    · exact List.prefix_append _ _
    · exact List.prefix_rfl
    · exact List.prefix_rfl
  have hpacket : ∀ s : CTorrentSocket, s.m_Outputs <+: (takePacket s).1.m_Outputs := by
    intro s
    rw [takePacket]
    split_ifs
    · exact (hlength s).trans (List.prefix_append _ _)
    · exact hlength s
  induction s using takePackets.induct with
  | case1 s hmore ih =>
    rw [takePackets, dif_pos hmore]
    exact (hpacket s).trans ih
  | case2 s hend =>
    rw [takePackets, dif_neg hend]
    exact hpacket s

theorem prefix_received {Data : List UInt8}
    (hdone : (processExchange crypto e (s.streamIn Data)).m_CryptoState = eDone) :
    (takeHandshake (processExchange crypto e (s.streamIn Data))).1.m_Outputs <+:
      (s.step crypto e (Event.received Data)).m_Outputs := by
  simp only [CTorrentSocket.step, processStream, if_neg (not_not.mpr hdone), takeStream]
  split_ifs
  · exact prefix_takePackets _
  · exact List.prefix_rfl

/-- An end that connects, of which the other end selects to go without encryption. It requires encryption, so this was
not offered. -/
def selecting : CTorrentSocket :=
  ((((CTorrentSocket.new.sendHandshake []).initCrypto (openCrypto (some [])) [1]).step (openCrypto (some []))
    Encryption.Require (Event.received (List.replicate 96 1))).step (openCrypto (some [])) Encryption.Require
      (Event.received (List.replicate 8 0 ++ [0, 0, 0, 1] ++ [0, 0])))

/-- The first bytes that an end receives. -/
def receiving (e : Encryption) (Data : List UInt8) : CTorrentSocket :=
  CTorrentSocket.new.step (openCrypto none) e (Event.received Data)

end Results

end NeoLoader.CryptoPolicy
