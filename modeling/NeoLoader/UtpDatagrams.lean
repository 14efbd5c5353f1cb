import NeoLoader.ByteReader
import NeoLoader.KeyMapTotals
import NeoLoader.KeyStream

/-!
# Datagrams of the listener

A datagram is a random number, a header, the key of the sender, the payload and padding. All but the number
is processed with a key stream, of which a part is left out behind the header. The receiver takes the
datagram apart in the same steps, and tests for a magic value if bits of the header are set that are reserved.
-/

namespace NeoLoader.UtpDatagrams

open ByteReader KeyMap KeyMap.OrderedMap KeyStream

section Code

structure SHdr where
  /-- `Type`. -/
  PacketType : ℕ
  Reserved : ℕ
  Discard : ℕ
  HasKey : Bool
  PadLen : ℕ
  deriving DecidableEq, Repr

/-- `Bits` of a header with these fields. -/
def SHdr.Bits (Hdr : SHdr) : ℕ :=
  Hdr.PacketType % 2 ^ 4 + 2 ^ 4 * (Hdr.Reserved % 2 ^ 16) + 2 ^ 20 * (Hdr.Discard % 2 ^ 4) +
    2 ^ 24 * Hdr.HasKey.toNat + 2 ^ 25 * (Hdr.PadLen % 2 ^ 7)

/-- `Fields` of a header with these bits. -/
def fields (Bits : ℕ) : SHdr where
  PacketType := Bits % 2 ^ 4
  Reserved := Bits / 2 ^ 4 % 2 ^ 16
  Discard := Bits / 2 ^ 20 % 2 ^ 4
  HasKey := Bits / 2 ^ 24 % 2 = 1
  PadLen := Bits / 2 ^ 25 % 2 ^ 7

def NEO_MAGIC : List UInt8 := [84, 76, 79, 49]

/-- The algorithms. -/
structure Crypto where
  md5 : List UInt8 → List UInt8
  /-- The key stream of `RC4` with a key. -/
  rc4 : List UInt8 → ℕ → UInt8

/-- `RC4` with the hash of a random number and a key, behind the first 256 bytes. -/
def Crypto.RC4 (crypto : Crypto) (Rand : List UInt8) (Key : UInt64) : Cipher :=
  (Cipher.mk (crypto.rc4 (crypto.md5 (Rand ++ littleEndian 8 Key.toNat))) 0).discard 256

variable (crypto : Crypto) {α : Type*} [LinearOrder α]

/-- `UtpHdr.Fields.type` of a payload, of the bytes behind it if it is empty. -/
def utpType (payload : List UInt8) (behind : ℕ → UInt8) : ℕ :=
  ofLittleEndian ((List.range 4).map fun i => payload.getD i (behind i)) / 2 ^ 4 % 2 ^ 4

/-- `SendKey` of `CUTPSocketListner::Send`. -/
def sendKey (PacketType : UInt8) (payload : List UInt8) (behind : ℕ → UInt8) : Bool :=
  if PacketType = 1 then utpType payload behind = 4 else true

/-- `PadLen` of `CUTPSocketListner::Send`, with a random number. -/
def padLen (PacketType : UInt8) (payload : List UInt8) (behind : ℕ → UInt8) (rand : ℕ) : ℕ :=
  if PacketType = 1 ∧ utpType payload behind = 0 then 0 else (rand % (16 + 1)) &&& 0x3F

/-- What comes about by chance when a datagram is sent. -/
structure Chance where
  Rand : UInt32
  /-- `rand()`. -/
  rand : ℕ
  /-- The bytes of the padding. -/
  padding : ℕ → UInt8
  /-- The bytes in the memory behind the payload. -/
  behind : ℕ → UInt8

/-- `Hdr` of `CUTPSocketListner::Send`. -/
def header (PacketType : UInt8) (payload : List UInt8) (chance : Chance) : SHdr where
  PacketType := PacketType.toNat
  Reserved := 0
  Discard := if payload.length ≥ 10 * 1024 then 3 else 0
  HasKey := sendKey PacketType payload chance.behind
  PadLen := padLen PacketType payload chance.behind chance.rand

/-- What stands behind the header of a datagram. -/
def content (RecvKey : UInt64) (Hdr : SHdr) (payload : List UInt8) (padding : ℕ → UInt8) : List UInt8 :=
  (if Hdr.HasKey then littleEndian 8 RecvKey.toNat else []) ++ payload ++ (List.range Hdr.PadLen).map padding

/-- A datagram: the random number, the header and what stands behind it. -/
def datagram (RC4 : Cipher) (Rand : List UInt8) (Hdr : SHdr) (content : List UInt8) : List UInt8 :=
  Rand ++ (RC4.process (littleEndian 4 Hdr.Bits) ++ ((RC4.discard 4).discard (Hdr.Discard * 256)).process content)

/-- `CUTPSocketListner::Send` with the own key, up to the system call. -/
def send (RecvKey : UInt64) (SendKeys : OrderedMap α UInt64) (sa : α) (PacketType : UInt8) (payload : List UInt8)
    (chance : Chance) : Option (List UInt8) :=
  match SendKeys.get sa with
  | none => none
  | some PassKey =>
    if payload.length > 0xFFFF - 0x80 then none
    else
      let Rand := littleEndian 4 chance.Rand.toNat
      let Hdr := header PacketType payload chance
      some (datagram (crypto.RC4 Rand PassKey) Rand Hdr (content RecvKey Hdr payload chance.padding))

/-- A datagram that was taken apart. -/
structure Handled where
  /-- `Type`. -/
  PacketType : ℕ
  /-- The payload. -/
  Packet : List UInt8
  PassKey : UInt64
  deriving DecidableEq, Repr

/-- What is called for a datagram. -/
inductive Call
  /-- `ReceiveFrom` with the payload and the key of the sender. -/
  | ReceiveFrom (Packet : List UInt8) (PassKey : UInt64)
  /-- `UTP_IsIncomingUTP` with the payload. -/
  | IsIncomingUTP (Packet : List UInt8)
  /-- `Send` of a datagram to synchronise. -/
  | Send
  /-- `Connect` of a session. -/
  | Connect
  /-- Nothing. -/
  | nothing
  deriving DecidableEq, Repr

/-- The last part of `CUTPSocketListner::Recv`, with the key of the sender. -/
def dispatch (RecvKey SendKey : UInt64) (handled : Handled) : Call :=
  if handled.PacketType = 0 then Call.ReceiveFrom handled.Packet SendKey
  else if handled.PacketType = 1 then Call.IsIncomingUTP handled.Packet
  else if handled.PacketType = 15 then if RecvKey < SendKey then Call.Send else Call.Connect
  else Call.nothing

/-- What comes of a datagram. -/
structure Outcome (α : Type*) [LinearOrder α] where
  SendKeys : OrderedMap α UInt64
  /-- The datagram, if it is not dropped. -/
  handled : Option Handled
  /-- What is called for it. -/
  call : Call
  /-- The pieces of the buffer that are read: where they begin and how long they are. -/
  reads : List (ℕ × ℕ)

/-- The header and the plain bytes of a datagram. -/
def decrypt (RecvKey : UInt64) (Buffer : List UInt8) : SHdr × List UInt8 :=
  let RC4 := crypto.RC4 (Buffer.take 4) RecvKey
  let first := RC4.process ((Buffer.drop 4).take 4)
  let Hdr := fields (ofLittleEndian first)
  (Hdr, Buffer.take 4 ++ first ++ ((RC4.discard 4).discard (Hdr.Discard * 256)).process (Buffer.drop 8))

/-- Bytes of the buffer, or of what stands in the memory behind it. -/
def bytesAt (plain : List UInt8) (behind : ℕ → UInt8) (uPos n : ℕ) : List UInt8 :=
  (List.range n).map fun i => plain.getD (uPos + i) (behind (uPos + i))

/-- `uPos` behind the header and the key. -/
def keyEnd (Hdr : SHdr) : ℕ := if Hdr.HasKey then 16 else 8

/-- `PassKey` of a datagram. -/
def passKey (Hdr : SHdr) (plain : List UInt8) (behind : ℕ → UInt8) : UInt64 :=
  if Hdr.HasKey then UInt64.ofNat (ofLittleEndian (bytesAt plain behind 8 8)) else 0

/-- The pieces that are read before the size is known to be right. -/
def firstReads (uSize : ℕ) : List (ℕ × ℕ) := [(0, 4), (4, 4), (8, uSize - 8)]

/-- The key is read. -/
def keyReads (Hdr : SHdr) : List (ℕ × ℕ) := if Hdr.HasKey then [(8, 8)] else []

/-- The magic value is read. -/
def magicReads (Hdr : SHdr) (uSize : ℕ) : List (ℕ × ℕ) := if Hdr.Reserved ≠ 0 then [(uSize, 4)] else []

/-- The middle part of `CUTPSocketListner::Recv`: the datagram is taken apart, or dropped. The size is that
without the padding at the end. -/
def takeApart (Hdr : SHdr) (plain : List UInt8) (behind : ℕ → UInt8) : Option Handled × List (ℕ × ℕ) :=
  if plain.length < keyEnd Hdr then (none, firstReads plain.length)
  else if plain.length - keyEnd Hdr < Hdr.PadLen then (none, firstReads plain.length ++ keyReads Hdr)
  else
    let uSize := plain.length - Hdr.PadLen
    let reads := firstReads plain.length ++ keyReads Hdr ++ magicReads Hdr uSize
    if Hdr.Reserved ≠ 0 ∧ bytesAt plain behind uSize 4 ≠ NEO_MAGIC then (none, reads)
    else
      (some ⟨Hdr.PacketType, bytesAt plain behind (keyEnd Hdr) (uSize - keyEnd Hdr), passKey Hdr plain behind⟩, reads)

/-- The key of the sender after a datagram with a key; there is none if it cannot be answered. -/
def senderKey (SendKeys : OrderedMap α UInt64) (sa : α) (PassKey : UInt64) : Option UInt64 :=
  match SendKeys.get sa with
  | none => if PassKey = 0 then none else some PassKey
  | some SendKey => if PassKey = 0 then some SendKey else some PassKey

/-- `CUTPSocketListner::Recv`, with what stands in the memory behind the datagram. -/
def recv (RecvKey : UInt64) (SendKeys : OrderedMap α UInt64) (sa : α) (Buffer : List UInt8)
    (behind : ℕ → UInt8) : Outcome α :=
  if Buffer.length < 8 then ⟨SendKeys, none, Call.nothing, []⟩
  else
    let opened := decrypt crypto RecvKey Buffer
    let taken := takeApart opened.1 opened.2 behind
    match taken.1 with
    | none => ⟨SendKeys, none, Call.nothing, taken.2⟩
    | some handled =>
      match senderKey SendKeys sa handled.PassKey with
      | none => ⟨SendKeys, none, Call.nothing, taken.2⟩
      | some SendKey =>
        ⟨SendKeys.insert sa SendKey, some handled, dispatch RecvKey SendKey handled,
          taken.2 ++ [(keyEnd opened.1, handled.Packet.length)]⟩

end Code

section Statement

variable (crypto : Crypto) {α : Type*} [LinearOrder α]

/-- What is expected of the datagram that is sent: the receiver finds the type, the payload and the key of the
sender, if this is there. -/
def RoundTrip (ownKey RecvKey : UInt64) (ownKeys SendKeys : OrderedMap α UInt64) (receiver sender : α)
    (PacketType : UInt8) (payload : List UInt8) (chance : Chance) (behind : ℕ → UInt8) : Prop :=
  ∃ Buffer, send crypto ownKey ownKeys receiver PacketType payload chance = some Buffer ∧
    (recv crypto RecvKey SendKeys sender Buffer behind).handled =
      some ⟨PacketType.toNat, payload, if sendKey PacketType payload chance.behind then ownKey else 0⟩

/-- What is expected of every datagram: no byte behind it is read, and none matters. -/
def InsideOnly (RecvKey : UInt64) (SendKeys : OrderedMap α UInt64) (sa : α) (Buffer : List UInt8)
    (behind : ℕ → UInt8) : Prop :=
  (∀ piece ∈ (recv crypto RecvKey SendKeys sa Buffer behind).reads, piece.1 + piece.2 ≤ Buffer.length) ∧
    ∀ behind', recv crypto RecvKey SendKeys sa Buffer behind' = recv crypto RecvKey SendKeys sa Buffer behind

/-- The receiver can answer the sender: it has a key, or gets one that is not zero. -/
def Answerable (ownKey : UInt64) (SendKeys : OrderedMap α UInt64) (sender : α) (PacketType : UInt8)
    (payload : List UInt8) (chance : Chance) : Prop :=
  (SendKeys.get sender).isSome = true ∨ sendKey PacketType payload chance.behind = true ∧ ownKey ≠ 0

/-- A datagram says that it has a magic value, but its padding is too short for one. -/
def ShortFooter (RecvKey : UInt64) (Buffer : List UInt8) : Prop :=
  8 ≤ Buffer.length ∧ (decrypt crypto RecvKey Buffer).1.Reserved ≠ 0 ∧ (decrypt crypto RecvKey Buffer).1.PadLen < 4 ∧
    keyEnd (decrypt crypto RecvKey Buffer).1 + (decrypt crypto RecvKey Buffer).1.PadLen ≤ Buffer.length

end Statement

section Headers

/-- The fields of a header come out of its bits. -/
theorem fields_Bits (Hdr : SHdr) : fields Hdr.Bits =
    ⟨Hdr.PacketType % 2 ^ 4, Hdr.Reserved % 2 ^ 16, Hdr.Discard % 2 ^ 4, Hdr.HasKey, Hdr.PadLen % 2 ^ 7⟩ := by
  have hkey : Hdr.HasKey.toNat < 2 := Hdr.HasKey.toNat_lt
  have htype := Nat.mod_lt Hdr.PacketType (show 2 ^ 4 > 0 by simp)
  have hreserved := Nat.mod_lt Hdr.Reserved (show 2 ^ 16 > 0 by simp)
  have hdiscard := Nat.mod_lt Hdr.Discard (show 2 ^ 4 > 0 by simp)
  have hpad := Nat.mod_lt Hdr.PadLen (show 2 ^ 7 > 0 by simp)
  have hbit : Hdr.Bits / 2 ^ 24 % 2 = Hdr.HasKey.toNat := by
    unfold SHdr.Bits
    omega
  unfold fields
  rw [hbit]
  unfold SHdr.Bits
  congr 1
  · omega
  · omega
  · omega
  · cases Hdr.HasKey <;> simp
  · omega

theorem Bits_lt (Hdr : SHdr) : Hdr.Bits < 256 ^ 4 := by
  have hkey : Hdr.HasKey.toNat < 2 := Hdr.HasKey.toNat_lt
  unfold SHdr.Bits
  omega

/-- The fields of a header of the code, but for its type, fit into their bits. -/
theorem fields_header (PacketType : UInt8) (payload : List UInt8) (chance : Chance) :
    fields (header PacketType payload chance).Bits =
      { header PacketType payload chance with PacketType := PacketType.toNat % 2 ^ 4 } := by
  have hpad : padLen PacketType payload chance.behind chance.rand % 2 ^ 7 =
      padLen PacketType payload chance.behind chance.rand := by
    refine Nat.mod_eq_of_lt ?_
    unfold padLen
    split_ifs
    · simp
    · exact Nat.and_le_right.trans_lt (by simp)
  have hdiscard : (header PacketType payload chance).Discard % 2 ^ 4 = (header PacketType payload chance).Discard := by
    unfold header
    dsimp only
    split_ifs <;> rfl
  rw [fields_Bits, hdiscard]
  simp only [header, hpad, Nat.zero_mod]

end Headers

section Bytes

theorem bytesAt_eq {plain : List UInt8} {uPos n : ℕ} (h : uPos + n ≤ plain.length) (behind : ℕ → UInt8) :
    bytesAt plain behind uPos n = (plain.drop uPos).take n := by
  unfold bytesAt
  refine List.ext_getElem (by simp; omega) fun i hi _ => ?_
  have hi : i < n := by simpa using hi
  simp [List.getD_eq_getElem?_getD, List.getElem?_eq_getElem (show uPos + i < plain.length by omega)]

@[simp] theorem length_bytesAt (plain : List UInt8) (behind : ℕ → UInt8) (uPos n : ℕ) :
    (bytesAt plain behind uPos n).length = n := by
  simp [bytesAt]

theorem bytesAt_middle (first middle last : List UInt8) (behind : ℕ → UInt8) :
    bytesAt (first ++ middle ++ last) behind first.length middle.length = middle := by
  rw [bytesAt_eq (by simp), List.append_assoc, List.drop_left, List.take_left]

theorem ofNat_littleEndian (Key : UInt64) : UInt64.ofNat (ofLittleEndian (littleEndian 8 Key.toNat)) = Key := by
  have hlt : Key.toNat < 256 ^ 8 := Key.toNat_lt
  rw [ofLittleEndian_littleEndian, Nat.mod_eq_of_lt hlt, UInt64.ofNat_toNat]

theorem length_decrypt (crypto : Crypto) (RecvKey : UInt64) {Buffer : List UInt8} (h : 8 ≤ Buffer.length) :
    (decrypt crypto RecvKey Buffer).2.length = Buffer.length := by
  simp [decrypt]
  omega

/-- A datagram is decrypted to what was put in. -/
theorem decrypt_datagram (crypto : Crypto) (Key : UInt64) {Rand : List UInt8} (Hdr : SHdr) (hRand : Rand.length = 4)
    (hdiscard : (fields Hdr.Bits).Discard = Hdr.Discard) (content : List UInt8) :
    decrypt crypto Key (datagram (crypto.RC4 Rand Key) Rand Hdr content) =
      (fields Hdr.Bits, Rand ++ littleEndian 4 Hdr.Bits ++ content) := by
  have htake : (datagram (crypto.RC4 Rand Key) Rand Hdr content).take 4 = Rand := by
    rw [datagram, ← hRand, List.take_left]
  have hheader : ((datagram (crypto.RC4 Rand Key) Rand Hdr content).drop 4).take 4 =
      (crypto.RC4 Rand Key).process (littleEndian 4 Hdr.Bits) := by
    rw [datagram, ← hRand, List.drop_left, hRand]
    exact List.take_left' (by simp)
  have hcontent : (datagram (crypto.RC4 Rand Key) Rand Hdr content).drop 8 =
      (((crypto.RC4 Rand Key).discard 4).discard (Hdr.Discard * 256)).process content := by
    rw [datagram, ← List.append_assoc]
    exact List.drop_left' (by simp [hRand])
  have hbits : ofLittleEndian (littleEndian 4 Hdr.Bits) = Hdr.Bits := by
    rw [ofLittleEndian_littleEndian, Nat.mod_eq_of_lt (Bits_lt Hdr)]
  unfold decrypt
  simp only [htake, hheader, hcontent, Cipher.process_process, hbits, hdiscard]

end Bytes

section Parts

variable {crypto : Crypto} {α : Type*} [LinearOrder α]

/-- The key of a datagram with a key. -/
theorem passKey_content {Hdr : SHdr} (RecvKey : UInt64) {first : List UInt8} (hfirst : first.length = 8)
    (payload : List UInt8) (padding behind : ℕ → UInt8) :
    passKey Hdr (first ++ content RecvKey Hdr payload padding) behind =
      if Hdr.HasKey then RecvKey else 0 := by
  unfold passKey content
  split_ifs with hkey
  · have hmiddle := bytesAt_middle first (littleEndian 8 RecvKey.toNat)
      (payload ++ (List.range Hdr.PadLen).map padding) behind
    rw [hfirst, length_littleEndian] at hmiddle
    have hparts : first ++ (littleEndian 8 RecvKey.toNat ++ payload ++ (List.range Hdr.PadLen).map padding) =
        first ++ littleEndian 8 RecvKey.toNat ++ (payload ++ (List.range Hdr.PadLen).map padding) := by
      simp
    rw [hparts, hmiddle, ofNat_littleEndian]
  · rfl

/-- A datagram without reserved bits is taken apart to what was put in. -/
theorem takeApart_content {Hdr : SHdr} (hreserved : Hdr.Reserved = 0) (RecvKey : UInt64)
    {first : List UInt8} (hfirst : first.length = 8) (payload : List UInt8) (padding behind : ℕ → UInt8) :
    (takeApart Hdr (first ++ content RecvKey Hdr payload padding) behind).1 =
      some ⟨Hdr.PacketType, payload, if Hdr.HasKey then RecvKey else 0⟩ := by
  have hkey : (first ++ if Hdr.HasKey then littleEndian 8 RecvKey.toNat else []).length = keyEnd Hdr := by
    unfold keyEnd
    split_ifs <;> simp [hfirst]
  have hlength : (first ++ content RecvKey Hdr payload padding).length = keyEnd Hdr + payload.length + Hdr.PadLen := by
    rw [← hkey]
    simp [content]
    omega
  have hmiddle := bytesAt_middle (first ++ if Hdr.HasKey then littleEndian 8 RecvKey.toNat else []) payload
    ((List.range Hdr.PadLen).map padding) behind
  have hparts : (first ++ if Hdr.HasKey then littleEndian 8 RecvKey.toNat else []) ++ payload ++
      (List.range Hdr.PadLen).map padding = first ++ content RecvKey Hdr payload padding := by
    simp [content]
  rw [hparts, hkey] at hmiddle
  have hpayload : (first ++ content RecvKey Hdr payload padding).length - Hdr.PadLen - keyEnd Hdr =
      payload.length := by omega
  unfold takeApart
  rw [if_neg (by omega), if_neg (by omega)]
  dsimp only
  rw [if_neg (by simp [hreserved]), hpayload, hmiddle, passKey_content RecvKey hfirst]

theorem senderKey_eq_none {SendKeys : OrderedMap α UInt64} {sa : α} {PassKey : UInt64} :
    senderKey SendKeys sa PassKey = none ↔ SendKeys.get sa = none ∧ PassKey = 0 := by
  unfold senderKey
  cases SendKeys.get sa with
  | none => simp
  | some SendKey =>
    dsimp only
    split_ifs <;> simp

section

variable {RecvKey : UInt64} {Buffer : List UInt8} (h : 8 ≤ Buffer.length) (SendKeys : OrderedMap α UInt64) (sa : α)
  (behind : ℕ → UInt8)

include h SendKeys sa behind

/-- What is handled of a datagram: what was taken apart, if the sender has a key. -/
theorem recv_handled : (recv crypto RecvKey SendKeys sa Buffer behind).handled =
      (takeApart (decrypt crypto RecvKey Buffer).1 (decrypt crypto RecvKey Buffer).2 behind).1.filter
        fun handled => (senderKey SendKeys sa handled.PassKey).isSome := by
  unfold recv
  rw [if_neg (by omega)]
  cases htaken : (takeApart (decrypt crypto RecvKey Buffer).1 (decrypt crypto RecvKey Buffer).2 behind).1 with
  | none => simp [htaken]
  | some handled =>
    cases hkey : senderKey SendKeys sa handled.PassKey with
    | none => simp [htaken, hkey, Option.filter]
    | some SendKey => simp [htaken, hkey, Option.filter]

/-- What is read of a datagram: what is read to take it apart, and the payload if it is handled. -/
theorem recv_reads : (recv crypto RecvKey SendKeys sa Buffer behind).reads =
      (takeApart (decrypt crypto RecvKey Buffer).1 (decrypt crypto RecvKey Buffer).2 behind).2 ++
        ((recv crypto RecvKey SendKeys sa Buffer behind).handled.map fun handled =>
          (keyEnd (decrypt crypto RecvKey Buffer).1, handled.Packet.length)).toList := by
  unfold recv
  rw [if_neg (by omega)]
  cases htaken : (takeApart (decrypt crypto RecvKey Buffer).1 (decrypt crypto RecvKey Buffer).2 behind).1 with
  | none => simp [htaken]
  | some handled =>
    cases hkey : senderKey SendKeys sa handled.PassKey with
    | none => simp [htaken, hkey]
    | some SendKey => simp [htaken, hkey]

end

end Parts

section Results

variable {crypto : Crypto} {α : Type*} [LinearOrder α]

/-- A datagram that is sent is taken apart to what was put in, and dropped if the sender has no key. -/
theorem recv_send (crypto : Crypto) (ownKey : UInt64) {RecvKey : UInt64} {ownKeys : OrderedMap α UInt64} {receiver : α}
    (hkey : ownKeys.get receiver = some RecvKey) (SendKeys : OrderedMap α UInt64) (sender : α)
    (PacketType : UInt8) {payload : List UInt8} (hsize : payload.length ≤ 0xFFFF - 0x80) (chance : Chance)
    (behind : ℕ → UInt8) : ∃ Buffer, send crypto ownKey ownKeys receiver PacketType payload chance = some Buffer ∧
      (recv crypto RecvKey SendKeys sender Buffer behind).handled = (some ⟨PacketType.toNat % 2 ^ 4, payload,
          if sendKey PacketType payload chance.behind then ownKey else 0⟩).filter
          fun handled => (senderKey SendKeys sender handled.PassKey).isSome := by
  have hfields := fields_header PacketType payload chance
  have hdiscard : (fields (header PacketType payload chance).Bits).Discard =
      (header PacketType payload chance).Discard := by rw [hfields]
  have hRand : (littleEndian 4 chance.Rand.toNat).length = 4 := by simp
  have hopened := decrypt_datagram crypto RecvKey (header PacketType payload chance) hRand hdiscard
    (content ownKey (header PacketType payload chance) payload chance.padding)
  have hcontent : content ownKey (header PacketType payload chance) payload chance.padding =
      content ownKey { header PacketType payload chance with PacketType := PacketType.toNat % 2 ^ 4 } payload
        chance.padding := rfl
  have hsend : send crypto ownKey ownKeys receiver PacketType payload chance =
      some (datagram (crypto.RC4 (littleEndian 4 chance.Rand.toNat) RecvKey)
        (littleEndian 4 chance.Rand.toNat) (header PacketType payload chance)
        (content ownKey (header PacketType payload chance) payload chance.padding)) := by
    unfold send
    simp only [hkey, if_neg (not_lt.mpr hsize)]
  refine ⟨_, hsend, ?_⟩
  rw [recv_handled (by simp [datagram]; omega), hopened, hfields, hcontent, takeApart_content rfl ownKey (by simp)]
  rfl

/-- The receiver finds what was put into a datagram, if the type fits and the sender can be answered. -/
theorem roundTrip_iff {ownKey RecvKey : UInt64} {ownKeys : OrderedMap α UInt64} {receiver : α}
    (hkey : ownKeys.get receiver = some RecvKey) (SendKeys : OrderedMap α UInt64) (sender : α)
    (PacketType : UInt8) {payload : List UInt8} (hsize : payload.length ≤ 0xFFFF - 0x80) (chance : Chance)
    (behind : ℕ → UInt8) :
    RoundTrip crypto ownKey RecvKey ownKeys SendKeys receiver sender PacketType payload chance behind ↔
      PacketType.toNat < 2 ^ 4 ∧ Answerable ownKey SendKeys sender PacketType payload chance := by
  obtain ⟨Buffer, hsend, hhandled⟩ := recv_send crypto ownKey hkey SendKeys sender PacketType hsize chance behind
  have htrip : RoundTrip crypto ownKey RecvKey ownKeys SendKeys receiver sender PacketType payload chance
      behind ↔ (recv crypto RecvKey SendKeys sender Buffer behind).handled =
        some ⟨PacketType.toNat, payload, if sendKey PacketType payload chance.behind then ownKey else 0⟩ := by
    unfold RoundTrip
    rw [hsend]
    simp
  have hanswer : Answerable ownKey SendKeys sender PacketType payload chance ↔ (senderKey SendKeys sender
        (if sendKey PacketType payload chance.behind then ownKey else 0)).isSome = true := by
    rw [Option.isSome_iff_ne_none, Ne, senderKey_eq_none]
    unfold Answerable
    cases SendKeys.get sender <;> cases sendKey PacketType payload chance.behind <;> simp
  rw [htrip, hhandled, hanswer, Option.filter_eq_some_iff]
  constructor
  · rintro ⟨hsame, hkeyed⟩
    have htype : PacketType.toNat % 2 ^ 4 = PacketType.toNat :=
      congrArg Handled.PacketType (Option.some.inj hsame)
    have hlt := Nat.mod_lt PacketType.toNat (show 2 ^ 4 > 0 by simp)
    exact ⟨by rwa [htype] at hlt, hkeyed⟩
  · rintro ⟨htype, hkeyed⟩
    rw [Nat.mod_eq_of_lt htype]
    exact ⟨rfl, hkeyed⟩

theorem firstReads_inside {uSize : ℕ} (h : 8 ≤ uSize) : ∀ piece ∈ firstReads uSize, piece.1 + piece.2 ≤ uSize := by
  simp [firstReads]
  omega

theorem keyReads_inside {Hdr : SHdr} {uSize : ℕ} (h : keyEnd Hdr ≤ uSize) :
    ∀ piece ∈ keyReads Hdr, piece.1 + piece.2 ≤ uSize := by
  unfold keyReads keyEnd at *
  split_ifs at *
  · simpa using h
  · simp

variable {plain : List UInt8}

/-- The pieces read to take a datagram apart are inside, unless it is too short for its magic value. -/
theorem takeApart_inside (Hdr : SHdr) (h : 8 ≤ plain.length) (behind : ℕ → UInt8) :
    (∀ piece ∈ (takeApart Hdr plain behind).2, piece.1 + piece.2 ≤ plain.length) ↔
      ¬ (Hdr.Reserved ≠ 0 ∧ Hdr.PadLen < 4 ∧ keyEnd Hdr + Hdr.PadLen ≤ plain.length) := by
  have hfirst := firstReads_inside h
  unfold takeApart
  split_ifs with hkey hpad
  · refine iff_of_true hfirst fun hshort => ?_
    omega
  · refine iff_of_true (fun piece hpiece => ?_) fun hshort => ?_
    · rcases List.mem_append.mp hpiece with hpiece | hpiece
      exacts [hfirst piece hpiece, keyReads_inside (not_lt.mp hkey) piece hpiece]
    · omega
  · have hmagic : (∀ piece ∈ firstReads plain.length ++ keyReads Hdr ++
        magicReads Hdr (plain.length - Hdr.PadLen), piece.1 + piece.2 ≤ plain.length) ↔
        ¬ (Hdr.Reserved ≠ 0 ∧ Hdr.PadLen < 4 ∧ keyEnd Hdr + Hdr.PadLen ≤ plain.length) := by
      have hread := keyReads_inside (not_lt.mp hkey)
      unfold magicReads
      by_cases hreserved : Hdr.Reserved = 0
      · simp only [hreserved, ne_eq, not_true_eq_false, if_false, List.append_nil, false_and, not_false_eq_true,
          iff_true]
        intro piece hpiece
        rcases List.mem_append.mp hpiece with hpiece | hpiece
        exacts [hfirst piece hpiece, hread piece hpiece]
      · constructor
        · intro hall hshort
          have hlast := hall (plain.length - Hdr.PadLen, 4) (by simp [hreserved])
          dsimp only at hlast
          omega
        · intro hlong piece hpiece
          rcases List.mem_append.mp hpiece with hpiece | hpiece
          · rcases List.mem_append.mp hpiece with hpiece | hpiece
            exacts [hfirst piece hpiece, hread piece hpiece]
          · simp only [ne_eq, hreserved, not_false_eq_true, if_true, List.mem_singleton] at hpiece
            subst hpiece
            have hfour : ¬ Hdr.PadLen < 4 := fun hfour => hlong ⟨hreserved, hfour, by omega⟩
            dsimp only
            omega
    dsimp only
    split_ifs
    · exact hmagic
    · exact hmagic

theorem takeApart_packet {Hdr : SHdr} {behind : ℕ → UInt8} {handled : Handled}
    (h : (takeApart Hdr plain behind).1 = some handled) : keyEnd Hdr + handled.Packet.length ≤ plain.length := by
  unfold takeApart at h
  split_ifs at h with hkey hpad
  dsimp only at h
  split_ifs at h
  have hpacket := congrArg (fun taken => taken.Packet.length) (Option.some.inj h)
  simp only [length_bytesAt] at hpacket
  omega

theorem bytesAt_behind {uPos n : ℕ} (h : uPos + n ≤ plain.length)
    (behind behind' : ℕ → UInt8) : bytesAt plain behind' uPos n = bytesAt plain behind uPos n := by
  rw [bytesAt_eq h, bytesAt_eq h]

/-- A datagram that is long enough for its magic value is taken apart alike, whatever stands behind. -/
theorem takeApart_behind {Hdr : SHdr}
    (h : ¬ (Hdr.Reserved ≠ 0 ∧ Hdr.PadLen < 4 ∧ keyEnd Hdr + Hdr.PadLen ≤ plain.length))
    (behind behind' : ℕ → UInt8) : takeApart Hdr plain behind' = takeApart Hdr plain behind := by
  unfold takeApart
  split_ifs with hkey hpad
  · rfl
  · rfl
  · have hpass : passKey Hdr plain behind' = passKey Hdr plain behind := by
      unfold passKey
      split_ifs with hhas
      · have hend : keyEnd Hdr = 16 := by simp [keyEnd, hhas]
        rw [bytesAt_behind (by omega)]
      · rfl
    have hpacket : bytesAt plain behind' (keyEnd Hdr) (plain.length - Hdr.PadLen - keyEnd Hdr) =
        bytesAt plain behind (keyEnd Hdr) (plain.length - Hdr.PadLen - keyEnd Hdr) :=
      bytesAt_behind (by omega) behind behind'
    dsimp only
    rw [hpass, hpacket]
    by_cases hreserved : Hdr.Reserved = 0
    · simp [hreserved]
    · have hfour : ¬ Hdr.PadLen < 4 := fun hfour => h ⟨hreserved, hfour, by omega⟩
      rw [bytesAt_behind (by omega)]

/-- Nothing behind a datagram is read exactly if it is long enough for its magic value. -/
theorem insideOnly_iff (RecvKey : UInt64) (SendKeys : OrderedMap α UInt64) (sa : α) (Buffer : List UInt8)
    (behind : ℕ → UInt8) :
    InsideOnly crypto RecvKey SendKeys sa Buffer behind ↔ ¬ ShortFooter crypto RecvKey Buffer := by
  by_cases hsize : 8 ≤ Buffer.length
  · have hlength := length_decrypt crypto RecvKey hsize
    have hinside := takeApart_inside (decrypt crypto RecvKey Buffer).1 (hlength.symm ▸ hsize) behind
    rw [hlength] at hinside
    have hfooter : ShortFooter crypto RecvKey Buffer ↔ (decrypt crypto RecvKey Buffer).1.Reserved ≠ 0 ∧
        (decrypt crypto RecvKey Buffer).1.PadLen < 4 ∧
        keyEnd (decrypt crypto RecvKey Buffer).1 + (decrypt crypto RecvKey Buffer).1.PadLen ≤
          Buffer.length := by
      simp [ShortFooter, hsize]
    rw [hfooter, ← hinside]
    unfold InsideOnly
    rw [recv_reads hsize]
    constructor
    · exact fun h piece hpiece => h.1 piece (List.mem_append_left _ hpiece)
    · intro h
      refine ⟨fun piece hpiece => ?_, fun behind' => ?_⟩
      · rcases List.mem_append.mp hpiece with hpiece | hpiece
        · exact h piece hpiece
        · simp only [Option.mem_toList, Option.map_eq_some_iff] at hpiece
          obtain ⟨handled, hhandled, rfl⟩ := hpiece
          rw [recv_handled hsize, Option.filter_eq_some_iff] at hhandled
          exact hlength ▸ takeApart_packet hhandled.1
      · have hsame := takeApart_behind (hlength.symm ▸ hinside.mp h) behind behind'
        unfold recv
        simp only [hsame]
  · have hshort : ¬ ShortFooter crypto RecvKey Buffer := fun h => hsize h.1
    refine iff_of_true ⟨?_, fun behind' => ?_⟩ hshort
    · simp [recv, show Buffer.length < 8 by omega]
    · simp [recv, show Buffer.length < 8 by omega]

/-- The datagram that is sent comes out as it was put in, and nothing behind a datagram is read, exactly if
the type fits into the header and the sender can be answered, and the datagram received is long enough for
its magic value. -/
theorem datagrams_iff (ownKey RecvKey : UInt64) (ownKeys SendKeys : OrderedMap α UInt64)
    (receiver sender sa : α) (hkey : ownKeys.get receiver = some RecvKey) (PacketType : UInt8)
    (payload : List UInt8) (hsize : payload.length ≤ 0xFFFF - 0x80) (chance : Chance) (Buffer : List UInt8)
    (behind : ℕ → UInt8) :
    (RoundTrip crypto ownKey RecvKey ownKeys SendKeys receiver sender PacketType payload chance behind ∧
      InsideOnly crypto RecvKey SendKeys sa Buffer behind) ↔
    (PacketType.toNat < 2 ^ 4 ∧ Answerable ownKey SendKeys sender PacketType payload chance) ∧
      ¬ ShortFooter crypto RecvKey Buffer := by
  rw [roundTrip_iff hkey SendKeys sender PacketType hsize, insideOnly_iff]

/-- A payload of two bytes comes out as it was put in. -/
theorem datagrams_iff_two :
    (RoundTrip ⟨fun bytes => bytes.take 16, fun key i => key.getD (i % 16) 0⟩ 5 7 (empty.insert 2 7) empty 2 3 0
        [1, 2] ⟨9, 3, fun _ => 0, fun _ => 0⟩ (fun _ => 0) ∧
      InsideOnly ⟨fun bytes => bytes.take 16, fun key i => key.getD (i % 16) 0⟩ 7
        (empty : OrderedMap ℕ UInt64) 3 [] (fun _ => 0)) ↔
    ((0 : UInt8).toNat < 2 ^ 4 ∧ Answerable 5 (empty : OrderedMap ℕ UInt64) 3 0 [1, 2] ⟨9, 3, fun _ => 0, fun _ => 0⟩) ∧
      ¬ ShortFooter ⟨fun bytes => bytes.take 16, fun key i => key.getD (i % 16) 0⟩ 7 [] :=
  datagrams_iff 5 7 (empty.insert 2 7) empty 2 3 3 (by simp) 0 [1, 2] (by simp) _ [] _

/-- With every algorithm and every key there is a datagram of eight bytes behind which four more are read. -/
theorem recv_reads_behind : ¬ ∃ (crypto : Crypto) (RecvKey : UInt64), ∀ (SendKeys : OrderedMap ℕ UInt64) (sa : ℕ)
      (Buffer : List UInt8) (behind : ℕ → UInt8),
      ∀ piece ∈ (recv crypto RecvKey SendKeys sa Buffer behind).reads, piece.1 + piece.2 ≤ Buffer.length := by
  rintro ⟨crypto, RecvKey, h⟩
  have hRand : ([0, 0, 0, 0] : List UInt8).length = 4 := rfl
  have hfields : fields (SHdr.mk 0 1 0 false 0).Bits = ⟨0, 1, 0, false, 0⟩ := by decide
  have hopened := decrypt_datagram crypto RecvKey ⟨0, 1, 0, false, 0⟩ hRand (by rw [hfields]) []
  rw [hfields] at hopened
  have hsize : 8 ≤ (datagram (crypto.RC4 [0, 0, 0, 0] RecvKey) [0, 0, 0, 0] ⟨0, 1, 0, false, 0⟩ []).length := by
    simp [datagram]
  have hread := h empty 0 _ (fun _ => 0) (8, 4)
    (by rw [recv_reads hsize, hopened]; exact List.mem_append_left _ (by decide))
  simp [datagram] at hread

end Results

end NeoLoader.UtpDatagrams
