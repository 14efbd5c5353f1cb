import NeoLoader.IpcHeader

/-!
# A stream of messages through a cipher

The bytes of the messages go through a stream cipher from the point on where a key exchange
switches it on. The receiver decrypts what it reads at once, so bytes that stand in its buffer
behind the message that switches its cipher on are not decrypted again. If a read ends where
the cipher is switched on, the messages come out as they were sent, however the stream is cut.
-/

namespace NeoLoader.IpcStream

open TextEncodings IpcFraming IpcHeader

/-- A stream cipher that works byte by byte; decryption undoes encryption. -/
structure Cipher (σ : Type*) where
  /-- A byte of the cipher text and what the cipher becomes. -/
  encrypt : σ → UInt8 → UInt8 × σ
  /-- A byte of the plain text and what the cipher becomes. -/
  decrypt : σ → UInt8 → UInt8 × σ
  /-- Decryption undoes encryption and keeps in step with it. -/
  decrypt_encrypt : ∀ s b, decrypt s (encrypt s b).1 = (b, (encrypt s b).2)

variable {σ : Type*} (c : Cipher σ)

/-- Encrypt a byte, if there is a key. -/
def encryptByte (key : Option σ) (b : UInt8) : UInt8 × Option σ :=
  match key with
  | none => (b, none)
  | some s => ((c.encrypt s b).1, some (c.encrypt s b).2)

/-- Decrypt a byte, if there is a key. -/
def decryptByte (key : Option σ) (b : UInt8) : UInt8 × Option σ :=
  match key with
  | none => (b, none)
  | some s => ((c.decrypt s b).1, some (c.decrypt s b).2)

/-- `m_CryptoKey->Encrypt`, if there is a key. -/
def encryptAll : Option σ → QByteArray → QByteArray × Option σ
  | key, [] => ([], key)
  | key, b :: bytes =>
    ((encryptByte c key b).1 :: (encryptAll (encryptByte c key b).2 bytes).1,
      (encryptAll (encryptByte c key b).2 bytes).2)

/-- `m_CryptoKey->Decrypt`, if there is a key. -/
def decryptAll : Option σ → QByteArray → QByteArray × Option σ
  | key, [] => ([], key)
  | key, b :: bytes =>
    ((decryptByte c key b).1 :: (decryptAll (decryptByte c key b).2 bytes).1,
      (decryptAll (decryptByte c key b).2 bytes).2)

variable (key : Option σ)

theorem decryptByte_encryptByte (b : UInt8) :
    decryptByte c key (encryptByte c key b).1 = (b, (encryptByte c key b).2) := by
  cases key with
  | none => rfl
  | some s =>
    rw [decryptByte, encryptByte]
    simp only [c.decrypt_encrypt]

theorem length_encryptAll (bytes : QByteArray) : (encryptAll c key bytes).1.length = bytes.length := by
  induction bytes generalizing key with
  | nil => rfl
  | cons b bytes ih => exact congrArg (· + 1) (ih _)

theorem encryptAll_append (first second : QByteArray) : encryptAll c key (first ++ second) =
      ((encryptAll c key first).1 ++ (encryptAll c (encryptAll c key first).2 second).1,
        (encryptAll c (encryptAll c key first).2 second).2) := by
  induction first generalizing key with
  | nil => rfl
  | cons b first ih =>
    rw [List.cons_append, encryptAll, ih, encryptAll]
    rfl

theorem decryptAll_append (first later : QByteArray) : decryptAll c key ((encryptAll c key first).1 ++ later) =
      (first ++ (decryptAll c (encryptAll c key first).2 later).1,
        (decryptAll c (encryptAll c key first).2 later).2) := by
  induction first generalizing key with
  | nil => rfl
  | cons b first ih =>
    rw [encryptAll, List.cons_append, decryptAll, decryptByte_encryptByte, ih]
    rfl

variable {D : Type*} (qt : Qt D)

/-- `CIPCSocket::Send`: the bytes written, and the key after them. -/
def send (key : Option σ) (m : Message D) : QByteArray × Option σ :=
  let out := qt.variant2String m.data m.encoding
  let first := encryptAll c key (header m out)
  let second := encryptAll c first.2 out
  (first.1 ++ second.1, second.2)

theorem send_eq (m : Message D) : send c qt key m = encryptAll c key (frame qt m) := by
  rw [frame, encryptAll_append]
  rfl

/-- All bytes written for some messages after others; after each the cipher may be switched
on. -/
def wire (switch : List (Message D) → Option σ) : List (Message D) → Option σ → List (Message D) → QByteArray
  | _, _, [] => []
  | sent, key, m :: ms =>
    (send c qt key m).1 ++ wire switch (sent ++ [m]) ((switch (sent ++ [m])).or (send c qt key m).2) ms

variable (secure : List (Message D) → Option σ)

/-- `CIPCSocket::OnReadyRead` with the bytes that are there; it is missing if the loop has not
ended after as many rounds as there are bytes. -/
def onReadyRead (s : CIPCSocket σ D) (chunk : QByteArray) : Option (CIPCSocket σ D) :=
  loop qt secure (s.readBuffer.length + chunk.length + 1)
    { s with
      readBuffer := s.readBuffer ++ (decryptAll c s.cryptoKey chunk).1
      cryptoKey := (decryptAll c s.cryptoKey chunk).2 }

/-- Bytes that come in some pieces. -/
def receiveAll : CIPCSocket σ D → List QByteArray → Option (CIPCSocket σ D)
  | s, [] => some s
  | s, chunk :: chunks => (onReadyRead c qt secure s chunk).bind fun s' => receiveAll s' chunks

/-- A connection before its first byte. -/
def CIPCSocket.init : CIPCSocket σ D := ⟨[], .eBinary, none, []⟩

/-- The bytes of some messages before they are encrypted. -/
def frames (ms : List (Message D)) : QByteArray := ms.flatMap (frame qt)

/-- The receiver is in step with the sender: it has passed `done`, has a part of the next
message in its buffer, and these bytes are still to come. -/
structure Synced (switch : List (Message D) → Option σ) (s : CIPCSocket σ D)
    (done ms : List (Message D)) (bytes : QByteArray) : Prop where
  /-- What was passed. -/
  received : s.received = done
  /-- The rest of the next message, encrypted, comes before the messages after it. -/
  rest : match ms with
    | [] => s.readBuffer = [] ∧ bytes = []
    | m :: later => ∃ missing, missing ≠ [] ∧ s.readBuffer ++ missing = frame qt m ∧
      bytes = (encryptAll c s.cryptoKey missing).1 ++ wire c qt switch (done ++ [m])
        ((switch (done ++ [m])).or (encryptAll c s.cryptoKey missing).2) later

theorem length_decryptAll (bytes : QByteArray) : (decryptAll c key bytes).1.length = bytes.length := by
  induction bytes generalizing key with
  | nil => rfl
  | cons b bytes ih => exact congrArg (· + 1) (ih _)

variable {c qt secure} {switch : List (Message D) → Option σ}

theorem frame_pos (m : Message D) : 0 < (frame qt m).length := by
  rw [frame, header, crlf]
  simp only [List.length_append, List.length_cons]
  omega

theorem synced_next (encoding : EEncoding) (key : Option σ) (done ms : List (Message D)) :
    Synced c qt switch ⟨[], encoding, key, done⟩ done ms (wire c qt switch done key ms) := by
  refine ⟨rfl, ?_⟩
  cases ms with
  | nil => exact ⟨rfl, rfl⟩
  | cons m later =>
    refine ⟨frame qt m, List.ne_nil_of_length_pos (frame_pos m), rfl, ?_⟩
    rw [wire, send_eq]

theorem cut_cases {chunk bytes enc later : QByteArray} (h : chunk ++ bytes = enc ++ later) :
    (∃ more, more ≠ [] ∧ enc = chunk ++ more ∧ bytes = more ++ later) ∨
      ∃ more, chunk = enc ++ more ∧ later = more ++ bytes := by
  rcases List.append_eq_append_iff.mp h with ⟨more, henc, hbytes⟩ | ⟨more, hchunk, hlater⟩
  · by_cases hmore : more = []
    · subst hmore
      rw [List.append_nil] at henc
      exact Or.inr ⟨[], by rw [henc, List.append_nil], hbytes.symm⟩
    · exact Or.inl ⟨more, hmore, henc, hbytes⟩
  · exact Or.inr ⟨more, hchunk, hlater⟩

/-- A part of an encrypted text is the encryption of a part. -/
theorem encryptAll_cut {key : Option σ} {text chunk more : QByteArray}
    (h : (encryptAll c key text).1 = chunk ++ more) : ∃ first second, text = first ++ second ∧
      chunk = (encryptAll c key first).1 ∧ more = (encryptAll c (encryptAll c key first).2 second).1 := by
  refine ⟨text.take chunk.length, text.drop chunk.length, (List.take_append_drop _ _).symm, ?_⟩
  have hsplit := encryptAll_append c key (text.take chunk.length) (text.drop chunk.length)
  rw [List.take_append_drop] at hsplit
  rw [hsplit] at h
  have hlength : chunk.length ≤ text.length := by
    have := congrArg List.length h
    rw [← congrArg Prod.fst hsplit, length_encryptAll, List.length_append] at this
    omega
  have hparts := List.append_inj h (by
    rw [length_encryptAll, List.length_take]
    omega)
  exact ⟨hparts.1.symm, hparts.2.symm⟩

/-- A chunk that goes no further than the next switch of the cipher: the loop passes the
messages that it completes, and the receiver stays in step. -/
theorem loop_chunk {ms : List (Message D)} (hms : ∀ m ∈ ms, IsSendable qt m) :
    ∀ {s : CIPCSocket σ D} {done : List (Message D)} {chunk bytes : QByteArray} {fuel : ℕ},
      Synced c qt switch s done ms (chunk ++ bytes) →
      (∀ first, first <+: ms → switch (done ++ first) = secure (done ++ first)) →
      (∀ first, first ≠ [] → first <+: ms → secure (done ++ first) ≠ none →
        s.readBuffer.length + chunk.length ≤ (frames qt first).length) →
      s.readBuffer.length + chunk.length < 2 ^ 31 →
      s.readBuffer.length + chunk.length < fuel →
      ∃ s' first rest, loop qt secure fuel ⟨s.readBuffer ++ (decryptAll c s.cryptoKey chunk).1, s.encoding,
            (decryptAll c s.cryptoKey chunk).2, s.received⟩ = some s' ∧
        ms = first ++ rest ∧ Synced c qt switch s' (done ++ first) rest bytes ∧
          s'.readBuffer.length + (frames qt first).length = s.readBuffer.length + chunk.length := by
  induction ms with
  | nil =>
    intro s done chunk bytes fuel hsync _ _ _ hfuel
    obtain ⟨hbuffer, hbytes⟩ := hsync.rest
    obtain ⟨rfl, rfl⟩ := List.append_eq_nil_iff.mp hbytes
    obtain ⟨fuel, rfl⟩ := Nat.exists_eq_succ_of_ne_zero (by omega : fuel ≠ 0)
    refine ⟨⟨[], s.encoding, s.cryptoKey, s.received⟩, [], [], ?_, rfl, ⟨?_, rfl, rfl⟩, ?_⟩
    · rw [hbuffer]
      exact loop_empty qt secure _ _ _ fuel
    · rw [List.append_nil]
      exact hsync.received
    · rw [hbuffer]
      rfl
  | cons m later ih =>
    intro s done chunk bytes fuel hsync hagree hno hsize hfuel
    obtain ⟨missing, hmissing, hframe, hbytes⟩ := hsync.rest
    have hm : IsSendable qt m := hms m List.mem_cons_self
    obtain ⟨fuel, rfl⟩ := Nat.exists_eq_succ_of_ne_zero (by omega : fuel ≠ 0)
    have hlength := congrArg List.length hframe
    rw [List.length_append] at hlength
    rcases cut_cases hbytes with ⟨more, hmore, henc, hlater⟩ | ⟨more, hchunk, hlater⟩
    · obtain ⟨first, second, rfl, hchunk, hrest⟩ := encryptAll_cut henc
      have hdecrypt : decryptAll c s.cryptoKey chunk = (first, (encryptAll c s.cryptoKey first).2) := by
        have hwhole := decryptAll_append c s.cryptoKey first []
        rwa [List.append_nil, ← hchunk, decryptAll, List.append_nil] at hwhole
      have hsecond : second ≠ [] := by
        rintro rfl
        exact hmore hrest
      obtain ⟨encoding', hwait⟩ := loop_part qt secure hm
        ((List.append_assoc s.readBuffer first second).trans hframe) hsecond s.encoding
        (encryptAll c s.cryptoKey first).2 s.received fuel
      refine ⟨⟨s.readBuffer ++ first, encoding', (encryptAll c s.cryptoKey first).2, s.received⟩,
        [], m :: later, ?_, rfl, ⟨?_, second, hsecond, ?_, ?_⟩, ?_⟩
      · rw [hdecrypt]
        exact hwait
      · rw [List.append_nil]
        exact hsync.received
      · exact (List.append_assoc s.readBuffer first second).trans hframe
      · rw [hlater, hrest, List.append_nil, encryptAll_append]
      · have hfirst : first.length = chunk.length := by rw [hchunk, length_encryptAll]
        rw [List.length_append, hfirst]
        rfl
    · have hmoreLength : chunk.length = missing.length + more.length := by
        rw [hchunk, List.length_append, length_encryptAll]
      let key := (encryptAll c s.cryptoKey missing).2
      let key' := (secure (done ++ [m])).or key
      have hswitch : switch (done ++ [m]) = secure (done ++ [m]) :=
        hagree [m] (List.cons_prefix_cons.mpr ⟨rfl, List.nil_prefix⟩)
      have hdecrypt : decryptAll c s.cryptoKey chunk =
          (missing ++ (decryptAll c key more).1, (decryptAll c key more).2) := by
        rw [hchunk]
        exact decryptAll_append c s.cryptoKey missing more
      have hsame : (decryptAll c key more).1 = (decryptAll c key' more).1 ∧
          (secure (done ++ [m])).or (decryptAll c key more).2 = (decryptAll c key' more).2 := by
        cases hsecure : secure (done ++ [m]) with
        | none => simp only [key', hsecure, Option.none_or, and_self]
        | some k =>
          have hend := hno [m] (List.cons_ne_nil _ _)
            (List.cons_prefix_cons.mpr ⟨rfl, List.nil_prefix⟩) (by rw [hsecure]; exact nofun)
          have hframes : (frames qt [m]).length = (frame qt m).length := by
            rw [frames, List.flatMap_singleton]
          have hempty : more = [] := List.eq_nil_of_length_eq_zero (by omega)
          subst hempty
          simp only [key', hsecure, decryptAll, Option.some_or, and_self]
      have hnext : Synced c qt switch ⟨[], m.encoding, key', done ++ [m]⟩ (done ++ [m]) later (more ++ bytes) := by
        rw [← hlater, hswitch]
        exact synced_next m.encoding key' (done ++ [m]) later
      obtain ⟨s', first, rest, hloop, hrest, hsync', hcount⟩ := @ih
        (fun a ha => hms a (List.mem_cons_of_mem _ ha)) _ _ _ _ fuel hnext
        (fun first hfirst => by
          rw [List.append_assoc]
          exact hagree (m :: first) (List.cons_prefix_cons.mpr ⟨rfl, hfirst⟩))
        (fun first hne hfirst hsecure => by
          rw [List.append_assoc] at hsecure
          have hend := hno (m :: first) (List.cons_ne_nil _ _) (List.cons_prefix_cons.mpr ⟨rfl, hfirst⟩) hsecure
          rw [frames, List.flatMap_cons, List.length_append] at hend
          rw [List.length_nil, frames]
          omega)
        (by rw [List.length_nil]; omega)
        (by
          have hpos : 0 < (frame qt m).length := frame_pos m
          rw [List.length_nil]
          omega)
      refine ⟨s', m :: first, rest, ?_, by rw [hrest, List.cons_append], ?_, ?_⟩
      · rw [hdecrypt, ← List.append_assoc, hframe, loop_frame qt secure hm (by
          rw [List.length_append, length_decryptAll]
          omega), hsync.received, hsame.1, hsame.2]
        exact hloop
      · rw [List.append_cons]
        exact hsync'
      · rw [frames, List.flatMap_cons, List.length_append, hmoreLength]
        rw [List.length_nil, frames] at hcount
        omega

variable {s : CIPCSocket σ D}

/-- A part of the next message is shorter than any messages from it on. -/
theorem readBuffer_lt {done ms first : List (Message D)} {bytes : QByteArray}
    (hsync : Synced c qt switch s done ms bytes) (hne : first ≠ []) (hfirst : first <+: ms) :
    s.readBuffer.length < (frames qt first).length := by
  obtain ⟨rest, rfl⟩ := hfirst
  cases first with
  | nil => exact absurd rfl hne
  | cons m first =>
    obtain ⟨missing, hmissing, hframe, -⟩ := hsync.rest
    have hlength := congrArg List.length hframe
    have hpos := List.length_pos_iff.mpr hmissing
    rw [List.length_append] at hlength
    rw [frames, List.flatMap_cons, List.length_append]
    omega

theorem eq_nil_of_synced {done ms : List (Message D)} (hsync : Synced c qt switch s done ms []) : ms = [] := by
  cases ms with
  | nil => rfl
  | cons m later =>
    obtain ⟨missing, hmissing, -, hbytes⟩ := hsync.rest
    have hlength := congrArg List.length (List.append_eq_nil_iff.mp hbytes.symm).1
    rw [length_encryptAll] at hlength
    exact absurd (List.eq_nil_of_length_eq_zero hlength) hmissing

variable (c qt secure)

/-- At each read the buffer has an `int` as its size. -/
def Small : CIPCSocket σ D → List QByteArray → Prop
  | _, [] => True
  | s, chunk :: chunks =>
    s.readBuffer.length + chunk.length < 2 ^ 31 ∧ ∀ s' ∈ onReadyRead c qt secure s chunk, Small s' chunks

/-- Each message that switches the cipher on, of those that come behind the bytes in the buffer,
ends where a read ends. -/
def CutAtSwitches (buffered : ℕ) (done ms : List (Message D)) (chunks : List QByteArray) : Prop :=
  ∀ first, first ≠ [] → first <+: ms → secure (done ++ first) ≠ none →
    (frames qt first).length ≤ buffered + chunks.flatten.length →
      ∃ k, buffered + (chunks.take k).flatten.length = (frames qt first).length

variable {c qt secure}

/-- A cut behind bytes in the buffer that are not yet a message lies in a later chunk. -/
theorem exists_later_cut {done ms first : List (Message D)}
    {bytes chunk : QByteArray} {chunks : List QByteArray} (hsync : Synced c qt switch s done ms bytes)
    (hcuts : CutAtSwitches qt secure s.readBuffer.length done ms (chunk :: chunks))
    (hne : first ≠ []) (hfirst : first <+: ms) (hsecure : secure (done ++ first) ≠ none)
    (hthere : (frames qt first).length ≤ s.readBuffer.length + chunk.length + chunks.flatten.length) :
    ∃ k, s.readBuffer.length + chunk.length + (chunks.take k).flatten.length = (frames qt first).length := by
  have hlt := readBuffer_lt hsync hne hfirst
  obtain ⟨k, hk⟩ := hcuts first hne hfirst hsecure (by
    rw [List.flatten_cons, List.length_append]
    omega)
  cases k with
  | zero =>
    rw [List.take_zero, List.flatten_nil, List.length_nil] at hk
    omega
  | succ k =>
    rw [List.take_succ_cons, List.flatten_cons, List.length_append] at hk
    exact ⟨k, by omega⟩

/-- However the bytes are cut, the receiver stays in step, if the cipher is switched on where
reads end. -/
theorem receiveAll_synced (chunks : List QByteArray) :
    ∀ {s : CIPCSocket σ D} {done ms : List (Message D)} {bytes : QByteArray},
      (∀ m ∈ ms, IsSendable qt m) → Synced c qt switch s done ms (chunks.flatten ++ bytes) →
      (∀ first, first <+: ms → switch (done ++ first) = secure (done ++ first)) →
      CutAtSwitches qt secure s.readBuffer.length done ms chunks → Small c qt secure s chunks →
      ∃ s' first rest, receiveAll c qt secure s chunks = some s' ∧ ms = first ++ rest ∧
        Synced c qt switch s' (done ++ first) rest bytes := by
  induction chunks with
  | nil =>
    intro s done ms bytes _ hsync _ _ _
    refine ⟨s, [], ms, rfl, rfl, ?_⟩
    rw [List.append_nil]
    exact hsync
  | cons chunk chunks ih =>
    intro s done ms bytes hms hsync hagree hcuts hsmall
    have hnow : Synced c qt switch s done ms (chunk ++ (chunks.flatten ++ bytes)) := by
      rw [← List.append_assoc]
      exact hsync
    obtain ⟨s', first, rest, hloop, rfl, hsync', hcount⟩ := loop_chunk hms hnow hagree
      (fun first hne hfirst hsecure => by
        by_contra hbehind
        obtain ⟨k, hk⟩ := exists_later_cut hnow hcuts hne hfirst hsecure (by omega)
        omega)
      hsmall.1 (Nat.lt_succ_self _)
    have hread : onReadyRead c qt secure s chunk = some s' := hloop
    obtain ⟨s'', more, rest', hrun, rfl, hsync''⟩ := ih (fun m hm => hms m (List.mem_append_right _ hm)) hsync'
      (fun more hmore => by
        rw [List.append_assoc]
        exact hagree _ ((List.prefix_append_right_inj first).mpr hmore))
      (fun more hne hmore hsecure hthere => by
        rw [List.append_assoc] at hsecure
        have hboth : (frames qt (first ++ more)).length = (frames qt first).length + (frames qt more).length := by
          rw [frames, List.flatMap_append, List.length_append, frames, frames]
        obtain ⟨k, hk⟩ := exists_later_cut hnow hcuts (List.append_ne_nil_of_right_ne_nil first hne)
          ((List.prefix_append_right_inj first).mpr hmore) hsecure (by omega)
        exact ⟨k, by omega⟩)
      (hsmall.2 s' hread)
    refine ⟨s'', first ++ more, rest', ?_, (List.append_assoc _ _ _).symm, ?_⟩
    · rw [receiveAll, hread]
      exact hrun
    · rw [← List.append_assoc]
      exact hsync''

variable (c qt switch secure)

/-- Messages come out as they were sent, each once and in order, however the stream is cut, if
both sides switch the cipher on behind the same messages and the reads end there; and over any
bytes the loop ends and stays within them exactly if the headers it comes to fit. -/
theorem receiveAll_wire : (∀ (ms : List (Message D)) (chunks : List QByteArray) (later : QByteArray),
      chunks.flatten ++ later = wire c qt switch [] none ms → (∀ m ∈ ms, IsSendable qt m) →
      (∀ first, first <+: ms → switch first = secure first) →
      CutAtSwitches qt secure 0 [] ms chunks → Small c qt secure CIPCSocket.init chunks →
      ∃ s, receiveAll c qt secure CIPCSocket.init chunks = some s ∧ s.received <+: ms ∧
        (later = [] → s.received = ms)) ∧
    ∀ s : CIPCSocket σ D,
      (Terminates qt secure s ∧ ∀ n, WithinFor qt secure n s) ↔ Fits qt s.encoding s.readBuffer := by
  refine ⟨fun ms chunks later hwire hms hagree hcuts hsmall => ?_, loop_iff_fits qt secure⟩
  have hsync : Synced c qt switch CIPCSocket.init [] ms (chunks.flatten ++ later) := by
    rw [hwire]
    exact synced_next .eBinary none [] ms
  obtain ⟨s, first, rest, hrun, rfl, hsync'⟩ :=
    receiveAll_synced chunks hms hsync hagree hcuts hsmall
  rw [List.nil_append] at hsync'
  refine ⟨s, hrun, ?_, ?_⟩
  · rw [hsync'.received]
    exact List.prefix_append first rest
  · rintro rfl
    rw [hsync'.received, eq_nil_of_synced hsync', List.append_nil]

/-- The characters of bytes. -/
def characters (b : QByteArray) : List Char := b.map fun x => Char.ofNat x.toNat

theorem characters_number (i : ℤ) : characters (number i) = decimalText i := by
  have hback : ∀ c ∈ decimalText i, Char.ofNat (UInt8.ofNat c.toNat).toNat = c := by
    intro c hc
    have hrange := toNat_of_mem_decimalText hc
    have hsize : UInt8.size = 256 := rfl
    rw [UInt8.toNat_ofNat_of_lt' (by omega), Char.ofNat_toNat]
  rw [characters, number, List.map_map]
  exact (List.map_congr_left hback).trans (List.map_id _)

/-- A number within bounds, and zero for another text. -/
def numberWithin (low high : ℤ) (b : QByteArray) : ℤ :=
  match decimalValue (characters b) with
  | none => 0
  | some i => if low ≤ i ∧ i < high then i else 0

theorem numberWithin_number {low high i : ℤ} (hlow : low ≤ i) (hhigh : i < high) :
    numberWithin low high (number i) = i := by
  rw [numberWithin, characters_number, decimalValue_decimalText]
  exact if_pos ⟨hlow, hhigh⟩

/-- The binary stream of short byte arrays: the kind of the value, its length and its bytes. -/
def shortBytes : Qt QByteArray where
  toUInt b := (numberWithin 0 (2 ^ 32) b).toNat
  toLongLong b := Int64.ofInt (numberWithin (-2 ^ 63) (2 ^ 63) b)
  variant2String d _ := [0, 0, 0, 12, 0, 0, 0, 0, UInt8.ofNat d.length] ++ d
  string2Variant b _ := b.drop 9
  toUInt_lt b := by
    rw [numberWithin]
    split
    · decide
    · split_ifs <;> omega
  toUInt_number n hn := by
    rw [numberWithin_number (Int.natCast_nonneg n) (by exact_mod_cast hn), Int.toNat_natCast]
  toLongLong_number n := by
    rw [numberWithin_number (Int64.le_toInt n) (Int64.toInt_lt n), Int64.ofInt_toInt]

/-- A cipher whose key stream is made of the last byte of the cipher text. -/
def feedback : Cipher UInt8 where
  encrypt s b := (b ^^^ (5 * s + 3), b ^^^ (5 * s + 3))
  decrypt s b := (b ^^^ (5 * s + 3), b)
  decrypt_encrypt s b := by rw [UInt8.xor_assoc, UInt8.xor_self, UInt8.xor_zero]

/-- The answer to a key exchange, and a request. -/
def answerAndRequest : List (Message QByteArray) :=
  [⟨ascii "Secure", ascii "Response", [7], .eBinary, 0⟩, ⟨ascii "Login", ascii "Request", [1, 2, 3], .eBinary, -1⟩]

/-- The cipher is switched on behind the first message. -/
def afterFirst (sent : List (Message QByteArray)) : Option UInt8 :=
  if sent.length = 1 then some 42 else none

/-- What is written for the two messages. -/
def bothWritten : QByteArray := wire feedback shortBytes afterFirst [] none answerAndRequest

/-- A read ends behind the first message, and the second one comes in two pieces. -/
def threeReads : List QByteArray :=
  [bothWritten.take 70, (bothWritten.drop 70).take 20, bothWritten.drop 90]

/-- A header that announces so many bytes that the end of its message is the begin of it. -/
def endlessHeader : QByteArray := ascii "A\r\nLength: 4294967271\r\n\r\n"

/-- Whether the buffer stays small can be computed. -/
instance decidableSmall {σ D : Type*} (c : Cipher σ) (qt : Qt D) (secure : List (Message D) → Option σ) :
    ∀ (s : CIPCSocket σ D) (chunks : List QByteArray), Decidable (Small c qt secure s chunks)
  | _, [] => inferInstanceAs (Decidable True)
  | s, chunk :: chunks =>
    have : DecidablePred fun s' => Small c qt secure s' chunks :=
      fun s' => decidableSmall c qt secure s' chunks
    inferInstanceAs (Decidable (s.readBuffer.length + chunk.length < 2 ^ 31 ∧
      ∀ s' ∈ onReadyRead c qt secure s chunk, Small c qt secure s' chunks))

/-- The two messages come out of the three reads. -/
theorem receiveAll_threeReads : ∃ s, receiveAll feedback shortBytes afterFirst CIPCSocket.init
    threeReads = some s ∧ s.received = answerAndRequest := by
  obtain ⟨s, hrun, -, hall⟩ := (receiveAll_wire feedback shortBytes afterFirst afterFirst).1
    answerAndRequest threeReads [] (by decide)
    (List.forall_mem_cons.mpr ⟨⟨⟨rfl, by decide, by decide⟩, ⟨rfl, by decide, by decide⟩, by decide,
      rfl, by decide⟩, List.forall_mem_cons.mpr ⟨⟨⟨rfl, by decide, by decide⟩,
        ⟨rfl, by decide, by decide⟩, by decide, rfl, by decide⟩, nofun⟩⟩)
    (fun _ _ => rfl)
    (fun first _ hfirst hsecure _ => by
      rw [List.nil_append, afterFirst] at hsecure
      have hone : first.length = 1 := by
        by_contra hlength
        exact hsecure (if_neg hlength)
      rw [List.prefix_iff_eq_take.mp hfirst, hone]
      exact ⟨1, by decide⟩)
    (by decide)
  exact ⟨s, hrun, hall rfl⟩

/-- A header can hold the loop for ever; and if both messages come in one read, the second one is
lost. -/
theorem receiveAll_wire_lost : ¬Terminates shortBytes afterFirst ⟨endlessHeader, .eBinary, none, []⟩ ∧
      [bothWritten].flatten = wire feedback shortBytes afterFirst [] none answerAndRequest ∧
      (receiveAll feedback shortBytes afterFirst CIPCSocket.init [bothWritten]).map
        (fun s => s.received.length) = some 1 := by
  refine ⟨fun h => ?_, by decide, by decide +kernel⟩
  obtain ⟨fuel, hfuel⟩ := h
  rw [loop_stuck shortBytes afterFirst fuel rfl (e := 21) (by decide) (by decide) (by decide) (by decide)] at hfuel
  exact absurd hfuel nofun

end NeoLoader.IpcStream
