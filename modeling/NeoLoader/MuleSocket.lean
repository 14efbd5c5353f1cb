import NeoLoader.ByteReader
import NeoLoader.IpcStream

/-!
# Obfuscated connections

Both ends of a connection begin with a header that is encrypted, but for a first part of it, and with
padding behind it. The receiver looks at its buffer through a second view, which keeps the size from
before the header was taken off; by that view it decides whether the padding has arrived. Then packets
follow, each with a protocol and a length in front.
-/

namespace NeoLoader.MuleSocket

open ByteReader IpcFraming IpcStream

section Buffers

/-- The content of a `CBuffer`, and the position in it. -/
structure InBuffer where
  /-- The used bytes. -/
  bytes : QByteArray
  uPosition : ℕ
  deriving DecidableEq

/-- `CBuffer::AppendData`. -/
def InBuffer.appendData (b : InBuffer) (data : QByteArray) : InBuffer :=
  { b with bytes := b.bytes ++ data }

/-- `CBuffer::ReadData`; there is an exception if there is not so much. -/
def InBuffer.readData (b : InBuffer) (uLength : ℕ) : Option (QByteArray × InBuffer) :=
  if b.uPosition + uLength > b.bytes.length then none
  else some ((b.bytes.drop b.uPosition).take uLength, { b with uPosition := b.uPosition + uLength })

/-- `CBuffer::ShiftData`: more than there is is not taken off. -/
def InBuffer.shiftData (b : InBuffer) (uOffset : ℕ) : InBuffer :=
  if uOffset > b.bytes.length then b
  else ⟨b.bytes.drop uOffset, if b.uPosition > uOffset then b.uPosition - uOffset else 0⟩

/-- `CBuffer::GetSizeLeft`. -/
def InBuffer.sizeLeft (b : InBuffer) : ℕ := b.bytes.length - b.uPosition

end Buffers

section Code

/-- The algorithms. -/
structure Crypto (σ : Type*) where
  /-- RC4. -/
  cipher : Cipher σ
  /-- `SetupEncryption` and `SetupDecryption` with a key. -/
  setup : QByteArray → σ
  /-- MD5. -/
  md5 : QByteArray → QByteArray

variable {σ : Type*} (crypto : Crypto σ)

/-- `MAGICVALUE_REQUESTER`. -/
def magicRequester : UInt8 := 34

/-- `MAGICVALUE_SERVER`. -/
def magicServer : UInt8 := 203

/-- `MAGICVALUE_SYNC`. -/
def magicSync : ℕ := 0x835E6FC4

/-- A key of two clients: of a user hash, a magic value and a random number. -/
def clientKey (UserHash : QByteArray) (magic : UInt8) (Rand : ℕ) : σ :=
  crypto.setup ((crypto.md5 (UserHash.take 16 ++ [magic] ++ littleEndian 4 Rand)).take 16)

/-- A key of a client and a server: of what they agreed on, and a magic value. -/
def serverKey (secret : QByteArray) (magic : UInt8) : σ :=
  crypto.setup ((crypto.md5 (secret ++ [magic])).take 16)

inductive ECrypto where
  | eInit
  /-- `ePending`: the own header was sent. -/
  | ePending
  /-- `ePadding`: the header was received. -/
  | ePadding
  | eDone
  deriving DecidableEq

/-- A packet with its protocol. -/
abbrev Packet := QByteArray × UInt8

structure CMuleSocket (σ : Type*) where
  inBuffer : InBuffer
  /-- `m_OutBuffer`, with all that was sent. -/
  outBuffer : QByteArray
  nextPacketProt : UInt8
  nextPacketLength : ℕ
  /-- `m_CryptoKey`: the states for encryption and decryption. -/
  cryptoKey : Option (σ × σ)
  /-- `m_KeyExchange`: it makes a secret of the other end's key. -/
  keyExchange : Option (QByteArray → QByteArray)
  cryptoState : ECrypto
  /-- What `ReceivedPacket` was emitted for. -/
  received : List Packet
  /-- `DisconnectFromHost` was called. -/
  disconnected : Bool

/-- `-1` as a length of a packet. -/
def noLength : ℕ := 2 ^ 32 - 1

/-- The constructor. -/
def CMuleSocket.new : CMuleSocket σ where
  inBuffer := ⟨[], 0⟩
  outBuffer := []
  nextPacketProt := 0
  nextPacketLength := noLength
  cryptoKey := none
  keyExchange := none
  cryptoState := ECrypto.eInit
  received := []
  disconnected := false

/-- `CMuleSocket::StreamOut`. -/
def streamOut (s : CMuleSocket σ) (data : QByteArray) : CMuleSocket σ :=
  { s with
    outBuffer := s.outBuffer ++ (encryptAll crypto.cipher (s.cryptoKey.map Prod.fst) data).1
    cryptoKey := s.cryptoKey.map fun key =>
      ((encryptAll crypto.cipher (some key.1) data).2.getD key.1, key.2) }

/-- `CMuleSocket::StreamIn`. -/
def streamIn (s : CMuleSocket σ) (data : QByteArray) : CMuleSocket σ :=
  { s with
    inBuffer := s.inBuffer.appendData (decryptAll crypto.cipher (s.cryptoKey.map Prod.snd) data).1
    cryptoKey := s.cryptoKey.map fun key =>
      (key.1, (decryptAll crypto.cipher (some key.2) data).2.getD key.2) }

/-- `CMuleSocket::SendPacket`. -/
def sendPacket (s : CMuleSocket σ) (p : Packet) : CMuleSocket σ :=
  streamOut crypto (streamOut crypto s ([p.2] ++ littleEndian 4 p.1.length)) p.1

/-- `CMuleSocket::InitCrypto` for another client, with its random numbers. -/
def initCryptoClient (UserHash : QByteArray) (Prot : UInt8) (Rand : ℕ) (padding : QByteArray) :
    CMuleSocket σ :=
  streamOut crypto
    { (CMuleSocket.new : CMuleSocket σ) with
      outBuffer := [Prot] ++ littleEndian 4 Rand
      cryptoKey := some (clientKey crypto UserHash magicRequester Rand, clientKey crypto UserHash magicServer Rand)
      cryptoState := ECrypto.ePending }
    (littleEndian 4 magicSync ++ [0, 0] ++ littleEndian 1 padding.length ++ padding)

/-- `CMuleSocket::InitCrypto` for a server, with its random numbers and the key exchange. -/
def initCryptoServer (Prot : UInt8) (pubKey : QByteArray) (finalise : QByteArray → QByteArray)
    (padding : QByteArray) : CMuleSocket σ :=
  { CMuleSocket.new with
    outBuffer := [Prot] ++ pubKey ++ padding
    keyExchange := some finalise
    cryptoState := ECrypto.ePending }

/-- The end of `CMuleSocket::ProcessCrypto`: the padding. `RawPacket` is a view of the buffer with the
size from the beginning. -/
def processPadding (uRawSize : ℕ) (s : CMuleSocket σ) : Option (CMuleSocket σ) :=
  s.inBuffer.bytes.head?.map fun Padding =>
    if uRawSize - 1 < Padding.toNat then s
    else { s with
      inBuffer := s.inBuffer.shiftData (1 + Padding.toNat)
      cryptoState := ECrypto.eDone }

/-- `CMuleSocket::ProcessCrypto` from the keys on: what is in the buffer behind `uPlain` bytes is
decrypted, the header is taken off, and there is a response. -/
def processKeys (s : CMuleSocket σ) (sendKey receiveKey : σ) (uPlain uShift : ℕ)
    (padding : QByteArray) : Option (CMuleSocket σ) :=
  let rest := decryptAll crypto.cipher (some receiveKey) (s.inBuffer.bytes.drop uPlain)
  let s := { s with
    inBuffer := { s.inBuffer with bytes := s.inBuffer.bytes.take uPlain ++ rest.1 }
    cryptoKey := some (sendKey, rest.2.getD receiveKey) }
  if ofLittleEndian (rest.1.take 4) ≠ magicSync then
    some { s with cryptoState := ECrypto.eDone, disconnected := true }
  else
    processPadding s.inBuffer.bytes.length
      { streamOut crypto
          { s with
            inBuffer := s.inBuffer.shiftData uShift
            cryptoState := ECrypto.ePadding }
          (littleEndian 4 magicSync ++ [0] ++ littleEndian 1 padding.length ++ padding) with
        keyExchange := none }

/-- `OP_EDONKEYPROT`, `OP_PACKEDPROT` and `OP_EMULEPROT`. -/
def plainProts : List UInt8 := [0xE3, 0xD4, 0xC5]

/-- `CMuleSocket::ProcessCrypto`, with the hash of the own user and random padding. -/
def processCrypto (UserHash padding : QByteArray) (s : CMuleSocket σ) : Option (CMuleSocket σ) :=
  if s.cryptoState = ECrypto.eInit ∨ s.cryptoState = ECrypto.ePending then
    if s.cryptoKey.isSome then
      if s.inBuffer.bytes.length < 6 then some s
      else if ofLittleEndian (s.inBuffer.bytes.take 4) ≠ magicSync then
        some { s with cryptoState := ECrypto.eDone, disconnected := true }
      else processPadding s.inBuffer.bytes.length
        { s with inBuffer := s.inBuffer.shiftData 5, cryptoState := ECrypto.ePadding }
    else match s.keyExchange with
      | some finalise =>
        if s.inBuffer.bytes.length < 96 + 4 + 2 + 1 then some s
        else
          let secret := finalise (s.inBuffer.bytes.take 96)
          processKeys crypto s (serverKey crypto secret magicRequester)
            (serverKey crypto secret magicServer) 96 (96 + 4 + 2) padding
      | none =>
        s.inBuffer.bytes.head?.bind fun Prot =>
          if Prot ∈ plainProts then some { s with cryptoState := ECrypto.eDone }
          else if s.inBuffer.bytes.length < 12 then some s
          else
            let Rand := ofLittleEndian ((s.inBuffer.bytes.drop 1).take 4)
            processKeys crypto s (clientKey crypto UserHash magicServer Rand)
              (clientKey crypto UserHash magicRequester Rand) 5 11 padding
  else processPadding s.inBuffer.bytes.length s

/-- The packet length is found. -/
def readHeader (s : CMuleSocket σ) : Option (CMuleSocket σ) :=
  (s.inBuffer.readData 1).bind fun Prot => (Prot.2.readData 4).map fun Length =>
    { s with
      inBuffer := Length.2
      nextPacketProt := Prot.1.headD 0
      nextPacketLength := ofLittleEndian Length.1 }

/-- A packet is taken, if it is there completely; the loop goes on if there are bytes behind it. -/
def takePacket (s : CMuleSocket σ) : Option (Bool × CMuleSocket σ) :=
  if s.inBuffer.sizeLeft < s.nextPacketLength then some (false, s)
  else (s.inBuffer.readData s.nextPacketLength).map fun data =>
    (decide ((data.2.shiftData (5 + s.nextPacketLength)).sizeLeft > 0),
      { s with
        inBuffer := data.2.shiftData (5 + s.nextPacketLength)
        received := s.received ++ [(data.1, s.nextPacketProt)]
        nextPacketProt := 0
        nextPacketLength := noLength })

/-- The longest packet: `MB2B(2)`. -/
def maxLength : ℕ := 2 * 1024 * 1024

/-- One round of the loop of `CMuleSocket::ProcessStream`. -/
def round (s : CMuleSocket σ) : Option (Bool × CMuleSocket σ) :=
  if s.nextPacketLength = noLength then
    if s.inBuffer.bytes.length < 5 then some (false, s)
    else (readHeader s).bind fun s =>
      if s.nextPacketLength > maxLength then some (false, { s with disconnected := true })
      else takePacket s
  else takePacket s

/-- The loop of `CMuleSocket::ProcessStream`. -/
def processPackets : ℕ → CMuleSocket σ → Option (CMuleSocket σ)
  | 0, _ => none
  | fuel + 1, s => (round s).bind fun r => if r.1 then processPackets fuel r.2 else some r.2

/-- `CMuleSocket::ProcessStream`. -/
def processStream (UserHash padding : QByteArray) (s : CMuleSocket σ) : Option (CMuleSocket σ) :=
  (if s.cryptoState ≠ ECrypto.eDone then processCrypto crypto UserHash padding s else some s).bind
    fun s => if s.cryptoState ≠ ECrypto.eDone then some s
      else processPackets (s.inBuffer.bytes.length + 1) s

/-- `CStreamSocket::ReadFromSocket`: some bytes arrive, as long as the connection is not closed. -/
def receive (UserHash padding : QByteArray) (s : CMuleSocket σ) (chunk : QByteArray) : Option (CMuleSocket σ) :=
  if s.disconnected ∨ chunk = [] then some s
  else processStream crypto UserHash padding (streamIn crypto s chunk)

end Code

section Packets

/-- A packet as it is sent. -/
def frame (p : Packet) : QByteArray := [p.2] ++ littleEndian 4 p.1.length ++ p.1

/-- Packets one behind the other. -/
def frames (ps : List Packet) : QByteArray := ps.flatMap frame

/-- A packet that is not too long. -/
def Sendable (p : Packet) : Prop := p.1.length ≤ maxLength

theorem length_frame (p : Packet) : (frame p).length = 5 + p.1.length := by
  rw [frame, List.length_append, List.length_append, length_littleEndian]
  rfl

theorem frames_cons (p : Packet) (ps : List Packet) : frames (p :: ps) = frame p ++ frames ps :=
  List.flatMap_cons

theorem frames_append (ps qs : List Packet) : frames (ps ++ qs) = frames ps ++ frames qs :=
  List.flatMap_append

variable {σ : Type*}

/-- Nothing but the reading of packets has changed. -/
structure SameSession (s s' : CMuleSocket σ) : Prop where
  /-- The keys. -/
  cryptoKey : s'.cryptoKey = s.cryptoKey
  /-- The state of the handshake. -/
  cryptoState : s'.cryptoState = s.cryptoState
  /-- The connection. -/
  disconnected : s'.disconnected = s.disconnected
  /-- What was sent. -/
  outBuffer : s'.outBuffer = s.outBuffer

/-- The header of the next packet was read, or it was not. -/
def Ready (s : CMuleSocket σ) (later : List Packet) : Prop :=
  (s.nextPacketLength = noLength ∧ s.inBuffer.uPosition = 0) ∨
    ∃ p more, later = p :: more ∧ s.nextPacketLength = p.1.length ∧ s.nextPacketProt = p.2 ∧
      s.inBuffer.uPosition = 5 ∧ 5 ≤ s.inBuffer.bytes.length

/-- The next packet is not there completely. -/
def Incomplete (b : QByteArray) (later : List Packet) : Prop :=
  ∀ p more, later = p :: more → b.length < (frame p).length

variable {p : Packet}

theorem readData_content {rest : QByteArray} {b : InBuffer}
    (hbytes : b.bytes = frame p ++ rest) (hposition : b.uPosition = 5) :
    b.readData p.1.length = some (p.1, { b with uPosition := 5 + p.1.length }) := by
  have hlength := length_frame p
  have hheader : ([p.2] ++ littleEndian 4 p.1.length).length = 5 := by
    rw [List.length_append, length_littleEndian]
    rfl
  rw [InBuffer.readData, hbytes, hposition, List.length_append, if_neg (by omega), frame,
    List.append_assoc, List.drop_left' hheader, List.take_left]

theorem takePacket_complete {rest : QByteArray} {s : CMuleSocket σ}
    (hbytes : s.inBuffer.bytes = frame p ++ rest) (hposition : s.inBuffer.uPosition = 5)
    (hlength : s.nextPacketLength = p.1.length) (hprot : s.nextPacketProt = p.2) :
    takePacket s = some (decide (rest.length > 0),
      { s with
        inBuffer := ⟨rest, 0⟩
        received := s.received ++ [p]
        nextPacketProt := 0
        nextPacketLength := noLength }) := by
  have hframe := length_frame p
  have hshift : (InBuffer.mk s.inBuffer.bytes (5 + p.1.length)).shiftData (5 + p.1.length) = ⟨rest, 0⟩ := by
    rw [InBuffer.shiftData, if_neg, if_neg (lt_irrefl _), hbytes, ← hframe, List.drop_left]
    rw [hbytes, List.length_append]
    omega
  rw [takePacket, InBuffer.sizeLeft, hlength, if_neg, readData_content hbytes hposition, Option.map_some, hprot]
  · dsimp only
    rw [hshift]
    rfl
  · rw [hbytes, hposition, List.length_append]
    omega

theorem takePacket_incomplete {s : CMuleSocket σ}
    (hshort : s.inBuffer.bytes.length < (frame p).length) (hposition : s.inBuffer.uPosition = 5)
    (hsize : 5 ≤ s.inBuffer.bytes.length) (hlength : s.nextPacketLength = p.1.length) :
    takePacket s = some (false, s) := by
  rw [length_frame] at hshort
  rw [takePacket, InBuffer.sizeLeft, hposition, hlength, if_pos (by omega)]

theorem readHeader_eq (hp : Sendable p) {more : List Packet} {s : CMuleSocket σ}
    (hstart : s.inBuffer.bytes <+: frames (p :: more)) (hposition : s.inBuffer.uPosition = 0)
    (hsize : 5 ≤ s.inBuffer.bytes.length) :
    readHeader s = some { s with
      inBuffer := { s.inBuffer with uPosition := 5 }
      nextPacketProt := p.2
      nextPacketLength := p.1.length } := by
  have hlt : p.1.length < 2 ^ 32 := lt_of_le_of_lt hp (by decide)
  have hheader : ([p.2] ++ littleEndian 4 p.1.length).length = 5 := by
    rw [List.length_append, length_littleEndian]
    rfl
  have hfront : s.inBuffer.bytes.take 5 = [p.2] ++ littleEndian 4 p.1.length := by
    have htake := List.prefix_iff_eq_take.mp ((List.take_prefix 5 _).trans hstart)
    rw [List.length_take_of_le hsize, frames_cons, frame, List.append_assoc, List.take_left' hheader] at htake
    exact htake
  have hprot : s.inBuffer.bytes.take 1 = [p.2] := by
    have h := congrArg (List.take 1) hfront
    rw [List.take_take] at h
    exact h
  have hlength : (s.inBuffer.bytes.drop 1).take 4 = littleEndian 4 p.1.length := by
    have h := congrArg (List.drop 1) hfront
    rw [List.drop_take] at h
    exact h
  rw [readHeader, InBuffer.readData, hposition, if_neg (by omega), Option.bind_some]
  dsimp only
  rw [InBuffer.readData, if_neg (by dsimp only; omega), Option.map_some]
  dsimp only
  rw [List.drop_zero, hprot, Nat.zero_add, hlength, ofLittleEndian_littleEndian,
    show p.1.length % 256 ^ 4 = p.1.length from Nat.mod_eq_of_lt hlt]
  rfl

/-- What a round does: the first packet is not there completely, or it is taken off. -/
def RoundOk (s : CMuleSocket σ) (later : List Packet) (result : Option (Bool × CMuleSocket σ)) : Prop :=
  (∃ s', result = some (false, s') ∧ SameSession s s' ∧ s'.received = s.received ∧
    s'.inBuffer.bytes = s.inBuffer.bytes ∧ Ready s' later ∧ Incomplete s.inBuffer.bytes later) ∨
  ∃ p more rest s', later = p :: more ∧ s.inBuffer.bytes = frame p ++ rest ∧ rest <+: frames more ∧
    result = some (decide (rest.length > 0), s') ∧ SameSession s s' ∧
      s'.received = s.received ++ [p] ∧ s'.inBuffer = ⟨rest, 0⟩ ∧ s'.nextPacketLength = noLength

/-- With its header a packet is taken as soon as it is complete. -/
theorem takePacket_spec {more : List Packet} {s : CMuleSocket σ}
    (hstart : s.inBuffer.bytes <+: frames (p :: more)) (hposition : s.inBuffer.uPosition = 5)
    (hsize : 5 ≤ s.inBuffer.bytes.length) (hlength : s.nextPacketLength = p.1.length)
    (hprot : s.nextPacketProt = p.2) : RoundOk s (p :: more) (takePacket s) := by
  by_cases hshort : s.inBuffer.bytes.length < (frame p).length
  · refine Or.inl ⟨s, takePacket_incomplete hshort hposition hsize hlength, ⟨rfl, rfl, rfl, rfl⟩, rfl, rfl,
      Or.inr ⟨p, more, rfl, hlength, hprot, hposition, hsize⟩, fun q rest hq => ?_⟩
    rw [← (List.cons.inj hq).1]
    exact hshort
  · rw [frames_cons] at hstart
    obtain ⟨rest, hbytes⟩ := List.prefix_of_prefix_length_le (List.prefix_append _ (frames more))
      hstart (not_lt.mp hshort)
    rw [← hbytes, List.prefix_append_right_inj] at hstart
    exact Or.inr ⟨p, more, rest, _, rfl, hbytes.symm, hstart,
      takePacket_complete hbytes.symm hposition hlength hprot, ⟨rfl, rfl, rfl, rfl⟩, rfl, rfl, rfl⟩

theorem length_ne (hp : Sendable p) : p.1.length ≠ noLength :=
  (lt_of_le_of_lt hp (by decide)).ne

/-- One round takes the first packet, or finds that it is not complete. -/
theorem round_spec {later : List Packet} (hlater : ∀ p ∈ later, Sendable p) {s : CMuleSocket σ}
    (hready : Ready s later) (hstart : s.inBuffer.bytes <+: frames later) : RoundOk s later (round s) := by
  rcases hready with ⟨hnone, hposition⟩ | ⟨p, more, rfl, hlength, hprot, hposition, hsize⟩
  · rw [round, if_pos hnone]
    by_cases hsize : s.inBuffer.bytes.length < 5
    · rw [if_pos hsize]
      refine Or.inl ⟨s, rfl, ⟨rfl, rfl, rfl, rfl⟩, rfl, rfl, Or.inl ⟨hnone, hposition⟩, fun p more _ => ?_⟩
      rw [length_frame]
      omega
    · rw [if_neg hsize]
      cases later with
      | nil =>
        rw [List.prefix_nil.mp hstart] at hsize
        exact absurd (by decide) hsize
      | cons p more =>
        have hp := hlater p List.mem_cons_self
        have hread := readHeader_eq hp hstart hposition (not_lt.mp hsize)
        rw [hread, Option.bind_some, if_neg (not_lt.mpr hp)]
        have htake := takePacket_spec (s := { s with
            inBuffer := { s.inBuffer with uPosition := 5 }
            nextPacketProt := p.2
            nextPacketLength := p.1.length }) hstart rfl (not_lt.mp hsize) rfl rfl
        rcases htake with ⟨s', hresult, hsame, hrest⟩ | ⟨q, rest, b, s', hq, hbytes, hb, hresult, hsame, hdone⟩
        · exact Or.inl ⟨s', hresult, ⟨hsame.cryptoKey, hsame.cryptoState, hsame.disconnected, hsame.outBuffer⟩, hrest⟩
        · exact Or.inr ⟨q, rest, b, s', hq, hbytes, hb, hresult,
            ⟨hsame.cryptoKey, hsame.cryptoState, hsame.disconnected, hsame.outBuffer⟩, hdone⟩
  · rw [round, if_neg (hlength ▸ length_ne (hlater p List.mem_cons_self))]
    exact takePacket_spec hstart hposition hsize hlength hprot

/-- The loop takes all packets that are complete. -/
theorem processPackets_spec {fuel : ℕ} {later : List Packet} (hlater : ∀ p ∈ later, Sendable p)
    {s : CMuleSocket σ} (hready : Ready s later) (hstart : s.inBuffer.bytes <+: frames later)
    (hfuel : s.inBuffer.bytes.length < fuel) :
    ∃ taken left s', later = taken ++ left ∧ processPackets fuel s = some s' ∧ SameSession s s' ∧
      s.inBuffer.bytes = frames taken ++ s'.inBuffer.bytes ∧ s'.received = s.received ++ taken ∧
        Ready s' left ∧ Incomplete s'.inBuffer.bytes left := by
  induction fuel generalizing later s with
  | zero => exact absurd hfuel (Nat.not_lt_zero _)
  | succ fuel ih =>
    rw [processPackets]
    rcases round_spec hlater hready hstart with ⟨s', hround, hsame, hreceived, hbytes, hready', hincomplete⟩ |
      ⟨p, more, rest, s', rfl, hbytes, hrest, hround, hsame, hreceived, hbuffer, hnone⟩
    · rw [hround]
      refine ⟨[], later, s', rfl, rfl, hsame, hbytes.symm, ?_, hready', hbytes ▸ hincomplete⟩
      rw [hreceived, List.append_nil]
    · rw [hround, Option.bind_some]
      have hbuffered : s'.inBuffer.bytes = rest := by rw [hbuffer]
      have hready' : Ready s' more := Or.inl ⟨hnone, by rw [hbuffer]⟩
      by_cases hmore : rest.length > 0
      · have hframe := length_frame p
        rw [hbytes, List.length_append] at hfuel
        obtain ⟨taken, left, last, rfl, hloop, hsame', htaken, hreceived', hlast⟩ :=
          ih (fun q hq => hlater q (List.mem_cons_of_mem _ hq)) hready' (hbuffered ▸ hrest) (by rw [hbuffered]; omega)
        dsimp only
        rw [if_pos (decide_eq_true hmore)]
        refine ⟨p :: taken, left, last, rfl, hloop, ⟨hsame'.cryptoKey.trans hsame.cryptoKey,
          hsame'.cryptoState.trans hsame.cryptoState, hsame'.disconnected.trans hsame.disconnected,
          hsame'.outBuffer.trans hsame.outBuffer⟩, ?_, ?_, hlast⟩
        · rw [hbytes, ← hbuffered, htaken, frames_cons, List.append_assoc]
        · rw [hreceived', hreceived, List.append_assoc]
          rfl
      · have hempty : rest = [] := List.length_eq_zero_iff.mp (by omega)
        subst hempty
        refine ⟨[p], more, s', rfl, rfl, hsame, ?_, hreceived, hready', ?_⟩
        · rw [hbytes, hbuffered, frames_cons]
          exact (List.append_nil _).symm
        · intro q left _
          rw [hbuffered, length_frame]
          exact Nat.lt_add_right _ (by decide)

end Packets

section Conservation

variable {σ : Type*}

/-- A header that was read stays in front of the position. -/
def Behind (s : CMuleSocket σ) : Prop :=
  s.nextPacketLength ≠ noLength → 5 ≤ s.inBuffer.uPosition

/-- The bytes of a connection behind its handshake: those of the packets, and those that are left. -/
def weight (s : CMuleSocket σ) : ℕ := (frames s.received).length + s.inBuffer.bytes.length

theorem readData_some {b b' : InBuffer} {n : ℕ} {data : QByteArray}
    (h : b.readData n = some (data, b')) : b'.bytes = b.bytes ∧ b'.uPosition = b.uPosition + n ∧
      b'.uPosition ≤ b.bytes.length ∧ data.length = n := by
  rw [InBuffer.readData] at h
  split_ifs at h with hout
  obtain ⟨hdata, hb⟩ := Prod.mk.inj (Option.some.inj h)
  rw [← hb, ← hdata, List.length_take, List.length_drop]
  dsimp only
  exact ⟨rfl, rfl, by omega, by omega⟩

/-- Taking a packet takes its bytes from the buffer. -/
theorem takePacket_weight {s s' : CMuleSocket σ} {more : Bool} (hbehind : 5 ≤ s.inBuffer.uPosition)
    (h : takePacket s = some (more, s')) : weight s' = weight s ∧ Behind s' ∧ s'.cryptoState = s.cryptoState := by
  rw [takePacket] at h
  split_ifs at h with hshort
  · obtain ⟨-, rfl⟩ := Prod.mk.inj (Option.some.inj h)
    exact ⟨rfl, fun _ => hbehind, rfl⟩
  · obtain ⟨⟨data, b⟩, hread, hresult⟩ := Option.map_eq_some_iff.mp h
    obtain ⟨-, rfl⟩ := Prod.mk.inj hresult
    obtain ⟨hbytes, hposition, hle, hlength⟩ := readData_some hread
    refine ⟨?_, fun hc => absurd rfl hc, rfl⟩
    rw [weight, weight]
    dsimp only
    rw [frames_append, List.length_append, InBuffer.shiftData, if_neg (by rw [hbytes]; omega),
      frames, frames, List.flatMap_singleton, length_frame]
    dsimp only
    rw [List.length_drop, hbytes]
    omega

/-- A round neither loses nor repeats bytes. -/
theorem round_weight {s s' : CMuleSocket σ} {more : Bool} (hbehind : Behind s) (h : round s = some (more, s')) :
    weight s' = weight s ∧ Behind s' ∧ s'.cryptoState = s.cryptoState := by
  rw [round] at h
  split_ifs at h with hnone hsize
  · obtain ⟨-, rfl⟩ := Prod.mk.inj (Option.some.inj h)
    exact ⟨rfl, hbehind, rfl⟩
  · obtain ⟨s₁, hheader, hrest⟩ := Option.bind_eq_some_iff.mp h
    obtain ⟨⟨Prot, b⟩, hProt, hmap⟩ := Option.bind_eq_some_iff.mp hheader
    obtain ⟨⟨Length, b'⟩, hLength, rfl⟩ := Option.map_eq_some_iff.mp hmap
    obtain ⟨hbytes, hposition, -, -⟩ := readData_some hProt
    obtain ⟨hbytes', hposition', -, -⟩ := readData_some hLength
    dsimp only at hbytes' hposition' hrest
    have hfive : 5 ≤ b'.uPosition := by omega
    have hweight : (frames s.received).length + b'.bytes.length = weight s := by
      rw [hbytes', hbytes]
      rfl
    split_ifs at hrest with hlong
    · obtain ⟨-, rfl⟩ := Prod.mk.inj (Option.some.inj hrest)
      exact ⟨hweight, fun _ => hfive, rfl⟩
    · obtain ⟨htaken, hbehind', hstate⟩ := takePacket_weight (by exact hfive) hrest
      exact ⟨htaken.trans hweight, hbehind', hstate⟩
  · exact takePacket_weight (hbehind hnone) h

/-- The loop neither loses nor repeats bytes. -/
theorem processPackets_weight {fuel : ℕ} {s s' : CMuleSocket σ} (hbehind : Behind s)
    (h : processPackets fuel s = some s') : weight s' = weight s ∧ Behind s' ∧ s'.cryptoState = s.cryptoState := by
  induction fuel generalizing s with
  | zero => exact absurd h nofun
  | succ fuel ih =>
    obtain ⟨⟨more, s₁⟩, hround, hrest⟩ := Option.bind_eq_some_iff.mp h
    obtain ⟨hweight, hbehind', hstate⟩ := round_weight hbehind hround
    dsimp only at hrest
    split_ifs at hrest with hmore
    · obtain ⟨hweight', hlast, hstate'⟩ := ih hbehind' hrest
      exact ⟨hweight'.trans hweight, hlast, hstate'.trans hstate⟩
    · rw [← Option.some.inj hrest]
      exact ⟨hweight, hbehind', hstate⟩

end Conservation

section Sessions

variable {σ : Type*} {crypto : Crypto σ} {UserHash reply : QByteArray} {out : QByteArray × σ}

theorem encryptAll_some (c : Cipher σ) (key : σ) (text : QByteArray) :
    ∃ key', (encryptAll c (some key) text).2 = some key' := by
  induction text generalizing key with
  | nil => exact ⟨key, rfl⟩
  | cons b text ih => exact ih (c.encrypt key b).2

/-- A chunk of an encrypted text is decrypted when it arrives. -/
theorem streamIn_keyed {s : CMuleSocket σ} {sendKey key : σ} (hkey : s.cryptoKey = some (sendKey, key))
    {text chunk rest : QByteArray}
    (hwire : (encryptAll crypto.cipher (some key) text).1 = chunk ++ rest) :
    ∃ first second key', text = first ++ second ∧ first.length = chunk.length ∧ streamIn crypto s chunk = { s with
        inBuffer := s.inBuffer.appendData first
        cryptoKey := some (sendKey, key') } ∧
      rest = (encryptAll crypto.cipher (some key') second).1 := by
  obtain ⟨first, second, htext, hchunk, hrest⟩ := encryptAll_cut hwire
  obtain ⟨key', hkey'⟩ := encryptAll_some crypto.cipher key first
  have hdecrypt := decryptAll_append crypto.cipher (some key) first []
  rw [List.append_nil, ← hchunk, hkey', decryptAll, List.append_nil] at hdecrypt
  refine ⟨first, second, key', htext, ?_, ?_, hkey' ▸ hrest⟩
  · rw [hchunk, length_encryptAll]
  · rw [streamIn, hkey, Option.map_some, Option.map_some, hdecrypt]
    rfl

/-- The connection is open, some bytes were sent, the next ones are encrypted with a key, and the rest
of a text is to come encrypted. -/
def Keyed (crypto : Crypto σ) (s : CMuleSocket σ) (out : QByteArray × σ) (remaining rest : QByteArray) : Prop :=
  s.disconnected = false ∧ s.outBuffer = out.1 ∧ ∃ key, s.cryptoKey = some (out.2, key) ∧
    (encryptAll crypto.cipher (some key) remaining).1 = rest

/-- Packets are received, of which some are to come. -/
structure Streaming (crypto : Crypto σ) (s : CMuleSocket σ) (out : QByteArray × σ) (ps : List Packet)
    (remaining rest : QByteArray) : Prop where
  /-- The handshake is over. -/
  state : s.cryptoState = ECrypto.eDone
  /-- The rest is to come. -/
  keyed : Keyed crypto s out remaining rest
  /-- All packets that are complete were received. -/
  split : ∃ later, ps = s.received ++ later ∧ Ready s later ∧
    s.inBuffer.bytes ++ remaining = frames later ∧ Incomplete s.inBuffer.bytes later

/-- The padding and the packets are received, of which some are to come. -/
structure Headed (crypto : Crypto σ) (s : CMuleSocket σ) (out : QByteArray × σ) (padding : QByteArray)
    (ps : List Packet) (remaining rest : QByteArray) : Prop where
  /-- The header was taken. -/
  state : s.cryptoState = ECrypto.ePadding
  /-- The rest is to come. -/
  keyed : Keyed crypto s out remaining rest
  /-- There is no packet yet. -/
  received : s.received = []
  /-- There is no length of a packet yet. -/
  noLength : s.nextPacketLength = noLength
  /-- Nothing was read yet. -/
  position : s.inBuffer.uPosition = 0
  /-- The length of the padding is in front. -/
  nonempty : s.inBuffer.bytes ≠ []
  /-- Then come the padding and the packets. -/
  bytes : s.inBuffer.bytes ++ remaining = littleEndian 1 padding.length ++ padding ++ frames ps

/-- All packets were received, and nothing else is left. -/
def Exact (s : CMuleSocket σ) (ps : List Packet) : Prop :=
  s.cryptoState = ECrypto.eDone ∧ s.disconnected = false ∧ s.received = ps ∧ s.inBuffer.bytes = []

/-- What was sent, and the key for what follows. -/
def Sent (s : CMuleSocket σ) (out : QByteArray × σ) : Prop :=
  s.outBuffer = out.1 ∧ ∃ key, s.cryptoKey = some (out.2, key)

/-- The loop after the handshake. -/
def packetsIf (s : CMuleSocket σ) : Option (CMuleSocket σ) :=
  if s.cryptoState ≠ ECrypto.eDone then some s else processPackets (s.inBuffer.bytes.length + 1) s

/-- After the loop the complete packets are received. -/
theorem packetsIf_spec {s : CMuleSocket σ} {ps later : List Packet} {remaining rest : QByteArray}
    (hps : ∀ p ∈ ps, Sendable p) (hstate : s.cryptoState = ECrypto.eDone)
    (hkeyed : Keyed crypto s out remaining rest) (hsplit : ps = s.received ++ later)
    (hready : Ready s later) (hbytes : s.inBuffer.bytes ++ remaining = frames later) :
    ∃ s', packetsIf s = some s' ∧ Streaming crypto s' out ps remaining rest := by
  have hlater : ∀ p ∈ later, Sendable p := fun p hp => hps p (hsplit ▸ List.mem_append_right _ hp)
  obtain ⟨taken, left, s', rfl, hloop, hsame, htaken, hreceived, hready', hincomplete⟩ :=
    processPackets_spec hlater hready ⟨remaining, hbytes⟩ (Nat.lt_succ_self _)
  obtain ⟨hopen, hout, key, hkey, hwire⟩ := hkeyed
  refine ⟨s', ?_, hsame.cryptoState.trans hstate, ⟨hsame.disconnected.trans hopen,
    hsame.outBuffer.trans hout, key, hsame.cryptoKey.trans hkey, hwire⟩, left, ?_, hready', ?_,
    hincomplete⟩
  · rw [packetsIf, if_neg (not_not.mpr hstate)]
    exact hloop
  · rw [hsplit, hreceived, List.append_assoc]
  · rw [htaken, frames_append, List.append_assoc, List.append_cancel_left_eq] at hbytes
    exact hbytes

theorem Streaming.chunk {s : CMuleSocket σ} {ps : List Packet} {remaining chunk rest : QByteArray}
    (hps : ∀ p ∈ ps, Sendable p) (h : Streaming crypto s out ps remaining (chunk ++ rest)) :
    ∃ s' remaining', receive crypto UserHash reply s chunk = some s' ∧
      Streaming crypto s' out ps remaining' rest := by
  obtain ⟨hopen, hout, key, hkey, hwire⟩ := h.keyed
  obtain ⟨later, hsplit, hready, hbytes, hincomplete⟩ := h.split
  by_cases hchunk : chunk = []
  · subst hchunk
    exact ⟨s, remaining, if_pos (Or.inr rfl), h.state, ⟨hopen, hout, key, hkey, hwire⟩, later,
      hsplit, hready, hbytes, hincomplete⟩
  · obtain ⟨first, second, key', rfl, -, hin, rfl⟩ := streamIn_keyed hkey hwire
    have hready' : Ready { s with
        inBuffer := s.inBuffer.appendData first
        cryptoKey := some (out.2, key') } later := by
      rcases hready with hstart | ⟨p, more, hlater, hlength, hprot, hposition, hsize⟩
      · exact Or.inl hstart
      · refine Or.inr ⟨p, more, hlater, hlength, hprot, hposition, ?_⟩
        rw [InBuffer.appendData, List.length_append]
        exact Nat.le_add_right_of_le hsize
    obtain ⟨s', hloop, hstream⟩ := packetsIf_spec (s := { s with
        inBuffer := s.inBuffer.appendData first
        cryptoKey := some (out.2, key') }) hps h.state ⟨hopen, hout, key', rfl, rfl⟩ hsplit hready'
      ((List.append_assoc _ _ _).trans hbytes)
    refine ⟨s', second, ?_, hstream⟩
    rw [receive, if_neg (not_or.mpr ⟨by rw [hopen]; decide, hchunk⟩), hin, processStream,
      if_neg (not_not.mpr h.state), Option.bind_some]
    exact hloop

/-- All chunks of packets. -/
theorem Streaming.run {ps : List Packet} (hps : ∀ p ∈ ps, Sendable p) (chunks : List QByteArray)
    {s : CMuleSocket σ} {remaining : QByteArray} (h : Streaming crypto s out ps remaining chunks.flatten) :
    ∃ s', chunks.foldlM (receive crypto UserHash reply) s = some s' ∧ Exact s' ps ∧ Sent s' out := by
  induction chunks generalizing s remaining with
  | nil =>
    obtain ⟨hopen, hout, key, hkey, hwire⟩ := h.keyed
    obtain ⟨later, hsplit, -, hbytes, hincomplete⟩ := h.split
    have hremaining : remaining = [] := by
      have hlength := congrArg List.length hwire
      rw [length_encryptAll] at hlength
      exact List.length_eq_zero_iff.mp hlength
    rw [hremaining, List.append_nil] at hbytes
    have hlater : later = [] := by
      cases later with
      | nil => rfl
      | cons p more =>
        have hless := hincomplete p more rfl
        rw [hbytes, frames_cons, List.length_append] at hless
        omega
    rw [hlater] at hsplit hbytes
    exact ⟨s, rfl, ⟨h.state, hopen, (hsplit.trans (List.append_nil _)).symm, hbytes⟩, hout, key, hkey⟩
  | cons chunk chunks ih =>
    rw [List.flatten_cons] at h
    obtain ⟨s₁, remaining', hreceive, hstream⟩ := h.chunk hps
    obtain ⟨s', hrun, hexact⟩ := ih hstream
    refine ⟨s', ?_, hexact⟩
    rw [List.foldlM_cons, hreceive]
    exact hrun

/-- The padding, and the packets if it is over. -/
def finish (uRawSize : ℕ) (s : CMuleSocket σ) : Option (CMuleSocket σ) :=
  (processPadding uRawSize s).bind packetsIf

section

variable {s : CMuleSocket σ} {padding : QByteArray} {ps : List Packet} {remaining rest : QByteArray}
  (h : Headed crypto s out padding ps remaining rest)

include h

theorem Headed.head : s.inBuffer.bytes.head? = some (UInt8.ofNat padding.length) := by
  have hbytes := h.bytes
  cases hfirst : s.inBuffer.bytes with
  | nil => exact absurd hfirst h.nonempty
  | cons b bytes =>
    rw [hfirst] at hbytes
    exact congrArg some (List.cons.inj hbytes).1

theorem Headed.finish_wait (hpadding : padding.length < 256) {uRawSize : ℕ} (hwait : uRawSize - 1 < padding.length) :
    finish uRawSize s = some s := by
  have hlength : (UInt8.ofNat padding.length).toNat = padding.length :=
    (UInt8.toNat_ofNat').trans (Nat.mod_eq_of_lt hpadding)
  rw [finish, processPadding, h.head, Option.map_some, Option.bind_some, hlength, if_pos hwait,
    packetsIf, if_pos (by rw [h.state]; decide)]

/-- Padding that is there completely is taken off, and packets follow. -/
theorem Headed.finish_done (hpadding : padding.length < 256) (hps : ∀ p ∈ ps, Sendable p) {uRawSize : ℕ}
    (hraw : s.inBuffer.bytes.length ≤ uRawSize) (hdone : 1 + padding.length ≤ s.inBuffer.bytes.length) :
    ∃ s', finish uRawSize s = some s' ∧ Streaming crypto s' out ps remaining rest := by
  have hlength : (UInt8.ofNat padding.length).toNat = padding.length :=
    (UInt8.toNat_ofNat').trans (Nat.mod_eq_of_lt hpadding)
  have hfront : (littleEndian 1 padding.length ++ padding).length = 1 + padding.length := by
    rw [List.length_append, length_littleEndian]
  obtain ⟨content, hcontent⟩ := List.prefix_of_prefix_length_le
    (List.prefix_append (littleEndian 1 padding.length ++ padding) (frames ps)) ⟨remaining, h.bytes⟩
    (by rw [hfront]; exact hdone)
  have hbytes := h.bytes
  rw [← hcontent, List.append_assoc, List.append_cancel_left_eq] at hbytes
  have hshift : s.inBuffer.shiftData (1 + padding.length) = ⟨content, 0⟩ := by
    rw [InBuffer.shiftData, if_neg (not_lt.mpr hdone), if_neg (by rw [h.position]; omega), ← hcontent,
      List.drop_left' hfront]
  have hsplit : ps = s.received ++ ps := by rw [h.received, List.nil_append]
  obtain ⟨s', hloop, hstream⟩ := packetsIf_spec (s := { s with
      inBuffer := ⟨content, 0⟩
      cryptoState := ECrypto.eDone }) hps rfl h.keyed hsplit
    (Or.inl ⟨h.noLength, rfl⟩) hbytes
  refine ⟨s', ?_, hstream⟩
  rw [finish, processPadding, h.head, Option.map_some, Option.bind_some, hlength, if_neg (by omega), hshift]
  exact hloop

end

/-- A chunk while padding is waited for. -/
theorem Headed.chunk {s : CMuleSocket σ} {padding : QByteArray} {ps : List Packet}
    {remaining chunk rest : QByteArray} (hpadding : padding.length < 256)
    (hps : ∀ p ∈ ps, Sendable p) (h : Headed crypto s out padding ps remaining (chunk ++ rest))
    (hwait : s.inBuffer.bytes.length < 1 + padding.length) :
    ∃ s' remaining', receive crypto UserHash reply s chunk = some s' ∧
      ((Headed crypto s' out padding ps remaining' rest ∧ s'.inBuffer.bytes.length < 1 + padding.length) ∨
        Streaming crypto s' out ps remaining' rest) := by
  obtain ⟨hopen, hout, key, hkey, hwire⟩ := h.keyed
  by_cases hchunk : chunk = []
  · subst hchunk
    exact ⟨s, remaining, if_pos (Or.inr rfl), Or.inl ⟨h, hwait⟩⟩
  · obtain ⟨first, second, key', rfl, -, hin, rfl⟩ := streamIn_keyed hkey hwire
    have hheaded : Headed crypto { s with
        inBuffer := s.inBuffer.appendData first
        cryptoKey := some (out.2, key') } out padding ps second
        (encryptAll crypto.cipher (some key') second).1 :=
      ⟨h.state, ⟨hopen, hout, key', rfl, rfl⟩, h.received, h.noLength, h.position,
        fun hc => h.nonempty (List.append_eq_nil_iff.mp hc).1,
        (List.append_assoc _ _ _).trans h.bytes⟩
    have hreceive : receive crypto UserHash reply s chunk = finish (s.inBuffer.bytes ++ first).length { s with
          inBuffer := s.inBuffer.appendData first
          cryptoKey := some (out.2, key') } := by
      rw [receive, if_neg (not_or.mpr ⟨by rw [hopen]; decide, hchunk⟩), hin, processStream,
        if_pos (by rw [h.state]; decide), processCrypto, if_neg (by rw [h.state]; decide)]
      rfl
    by_cases hdone : 1 + padding.length ≤ (s.inBuffer.bytes ++ first).length
    · obtain ⟨s', hfinish, hstream⟩ := hheaded.finish_done hpadding hps le_rfl hdone
      exact ⟨s', second, hreceive.trans hfinish, Or.inr hstream⟩
    · have hnonempty : 0 < (s.inBuffer.bytes ++ first).length :=
        List.length_pos_iff.mpr hheaded.nonempty
      refine ⟨_, second, hreceive.trans (hheaded.finish_wait hpadding ?_), Or.inl ⟨hheaded, not_le.mp hdone⟩⟩
      omega

/-- All chunks from the padding on. -/
theorem Headed.run {padding : QByteArray} {ps : List Packet} (hpadding : padding.length < 256)
    (hps : ∀ p ∈ ps, Sendable p) (chunks : List QByteArray) {s : CMuleSocket σ}
    {remaining : QByteArray} (h : Headed crypto s out padding ps remaining chunks.flatten)
    (hwait : s.inBuffer.bytes.length < 1 + padding.length) :
    ∃ s', chunks.foldlM (receive crypto UserHash reply) s = some s' ∧ Exact s' ps ∧ Sent s' out := by
  induction chunks generalizing s remaining with
  | nil =>
    obtain ⟨-, -, key, -, hwire⟩ := h.keyed
    have hbytes := congrArg List.length h.bytes
    have hlength := congrArg List.length hwire
    rw [length_encryptAll] at hlength
    change remaining.length = 0 at hlength
    simp only [List.length_append, length_littleEndian] at hbytes
    omega
  | cons chunk chunks ih =>
    rw [List.flatten_cons] at h
    obtain ⟨s₁, remaining', hreceive, hnext⟩ := h.chunk hpadding hps hwait
    rw [List.foldlM_cons, hreceive]
    rcases hnext with ⟨hheaded, hwait'⟩ | hstream
    · exact ih hheaded hwait'
    · exact hstream.run hps chunks

/-- Some bytes that belong to the handshake are taken for packets. -/
def Derailed (s : CMuleSocket σ) : Prop := s.cryptoState = ECrypto.eDone ∧ Behind s

/-- Padding that only the view has is not taken off. -/
theorem Headed.finish_derailed {s s' : CMuleSocket σ} {padding : QByteArray} {ps : List Packet}
    {remaining rest : QByteArray} (h : Headed crypto s out padding ps remaining rest)
    (hpadding : padding.length < 256) {uRawSize : ℕ} (hview : padding.length ≤ uRawSize - 1)
    (hshort : s.inBuffer.bytes.length < 1 + padding.length) (hfinish : finish uRawSize s = some s') :
    Derailed s' ∧ weight s' = s.inBuffer.bytes.length := by
  have hlength : (UInt8.ofNat padding.length).toNat = padding.length :=
    (UInt8.toNat_ofNat').trans (Nat.mod_eq_of_lt hpadding)
  rw [finish, processPadding, h.head, Option.map_some, Option.bind_some, hlength,
    if_neg (not_lt.mpr hview), InBuffer.shiftData, if_pos hshort, packetsIf,
    if_neg (not_not.mpr rfl)] at hfinish
  have hstart : Behind { s with cryptoState := ECrypto.eDone } := fun hc => absurd h.noLength hc
  obtain ⟨hweight, hbehind, hstate⟩ := processPackets_weight hstart hfinish
  refine ⟨⟨hstate, hbehind⟩, hweight.trans ?_⟩
  rw [weight]
  dsimp only
  rw [h.received]
  exact Nat.zero_add _

theorem run_closed (chunks : List QByteArray) {s : CMuleSocket σ} (h : s.disconnected = true) :
    chunks.foldlM (receive crypto UserHash reply) s = some s := by
  induction chunks with
  | nil => rfl
  | cons chunk chunks ih =>
    rw [List.foldlM_cons, receive, if_pos (Or.inl h)]
    exact ih

/-- A chunk behind such a handshake goes into the buffer or into packets. -/
theorem Derailed.chunk {chunk : QByteArray} {s s' : CMuleSocket σ} (h : Derailed s)
    (hopen : s.disconnected = false) (hreceive : receive crypto UserHash reply s chunk = some s') :
    Derailed s' ∧ weight s' = weight s + chunk.length := by
  rw [receive] at hreceive
  split_ifs at hreceive with hskip
  · rw [← Option.some.inj hreceive, hskip.resolve_left (by rw [hopen]; decide)]
    exact ⟨h, rfl⟩
  · rw [processStream, if_neg (not_not.mpr (by exact h.1)), Option.bind_some,
      if_neg (not_not.mpr (by exact h.1))] at hreceive
    have hbehind : Behind (streamIn crypto s chunk) := h.2
    obtain ⟨hweight, hbehind', hstate⟩ := processPackets_weight hbehind hreceive
    refine ⟨⟨hstate.trans h.1, hbehind'⟩, hweight.trans ?_⟩
    rw [weight, weight, streamIn, InBuffer.appendData]
    dsimp only
    rw [List.length_append, length_decryptAll, Nat.add_assoc]

/-- No byte is lost behind such a handshake, as long as the connection is not closed. -/
theorem Derailed.run (chunks : List QByteArray) {s s' : CMuleSocket σ} (h : Derailed s)
    (hrun : chunks.foldlM (receive crypto UserHash reply) s = some s')
    (hopen : s'.disconnected = false) : weight s' = weight s + chunks.flatten.length := by
  induction chunks generalizing s with
  | nil =>
    rw [← Option.some.inj hrun]
    rfl
  | cons chunk chunks ih =>
    rw [List.foldlM_cons] at hrun
    obtain ⟨s₁, hreceive, hrest⟩ := Option.bind_eq_some_iff.mp hrun
    cases hclosed : s.disconnected with
    | true =>
      have hsame : s₁ = s := by
        rw [receive, if_pos (Or.inl hclosed)] at hreceive
        exact (Option.some.inj hreceive).symm
      rw [hsame, run_closed chunks hclosed] at hrest
      rw [← Option.some.inj hrest, hclosed] at hopen
      exact absurd hopen nofun
    | false =>
      obtain ⟨hderailed, hweight⟩ := h.chunk hclosed hreceive
      rw [ih hderailed hrest, hweight, List.flatten_cons, List.length_append, Nat.add_assoc]

/-- The read that completes the header has the padding too, or the padding is longer than all that was
received. -/
def PaddingSeen (uShift uPadding : ℕ) : ℕ → List QByteArray → Prop
  | _, [] => True
  | n, chunk :: chunks =>
    if n + chunk.length < uShift + 1 then PaddingSeen uShift uPadding (n + chunk.length) chunks
    else n + chunk.length - 1 < uPadding ∨ uShift + 1 + uPadding ≤ n + chunk.length

/-- Receiving before the header is there: some bytes have arrived, and some are to come. -/
structure Beginning (crypto : Crypto σ) (UserHash reply : QByteArray) (out : QByteArray × σ)
    (uShift : ℕ) (padding : QByteArray) (ps : List Packet)
    (Before : CMuleSocket σ → ℕ → QByteArray → Prop) : Prop where
  /-- Less than the header is waited for. -/
  short : ∀ s n chunk rest, Before s n (chunk ++ rest) → n + chunk.length < uShift + 1 →
    ∃ s', receive crypto UserHash reply s chunk = some s' ∧ Before s' (n + chunk.length) rest
  /-- The header is taken off, and the view has all bytes that were received. -/
  long : ∀ s n chunk rest, Before s n (chunk ++ rest) → n < uShift + 1 →
    uShift + 1 ≤ n + chunk.length → ∃ s' remaining, Headed crypto s' out padding ps remaining rest ∧
      s'.inBuffer.bytes.length + uShift = n + chunk.length ∧
      receive crypto UserHash reply s chunk = finish (n + chunk.length) s'
  /-- The stream has a header. -/
  header : ∀ s n, Before s n [] → uShift + 1 ≤ n

variable {n : ℕ}

/-- All is received as it was sent if the padding is seen, and only then. -/
theorem Beginning.run_iff {uShift : ℕ} {padding : QByteArray} {ps : List Packet}
    {Before : CMuleSocket σ → ℕ → QByteArray → Prop} (h : Beginning crypto UserHash reply out uShift padding ps Before)
    (hpadding : padding.length < 256) (hps : ∀ p ∈ ps, Sendable p) (chunks : List QByteArray)
    {s : CMuleSocket σ} (hbefore : Before s n chunks.flatten) (hn : n < uShift + 1) :
    (PaddingSeen uShift padding.length n chunks → ∃ s',
      chunks.foldlM (receive crypto UserHash reply) s = some s' ∧ Exact s' ps ∧ Sent s' out) ∧
    ((∃ s', chunks.foldlM (receive crypto UserHash reply) s = some s' ∧ Exact s' ps) →
      PaddingSeen uShift padding.length n chunks) := by
  induction chunks generalizing s n with
  | nil => exact absurd (h.header s n hbefore) (by omega)
  | cons chunk chunks ih =>
    rw [List.flatten_cons] at hbefore
    rw [List.foldlM_cons, PaddingSeen]
    by_cases hshort : n + chunk.length < uShift + 1
    · obtain ⟨s₁, hreceive, hnext⟩ := h.short s n chunk _ hbefore hshort
      rw [if_pos hshort, hreceive]
      exact ih hnext hshort
    · obtain ⟨s₁, remaining, hheaded, hview, hreceive⟩ :=
        h.long s n chunk _ hbefore hn (not_lt.mp hshort)
      rw [if_neg hshort, hreceive]
      by_cases hwait : n + chunk.length - 1 < padding.length
      · rw [hheaded.finish_wait hpadding hwait]
        exact ⟨fun _ => hheaded.run hpadding hps chunks (by omega), fun _ => Or.inl hwait⟩
      by_cases hdone : uShift + 1 + padding.length ≤ n + chunk.length
      · obtain ⟨s₂, hfinish, hstream⟩ :=
          hheaded.finish_done hpadding hps (by omega : _ ≤ n + chunk.length) (by omega)
        rw [hfinish]
        exact ⟨fun _ => hstream.run hps chunks, fun _ => Or.inr hdone⟩
      · refine ⟨fun hseen => absurd hseen (not_or.mpr ⟨hwait, hdone⟩), ?_⟩
        rintro ⟨s', hrun, -, hopen, hreceived, hempty⟩
        exfalso
        obtain ⟨s₂, hfinish, hrest⟩ := Option.bind_eq_some_iff.mp hrun
        obtain ⟨hderailed, hweight⟩ :=
          hheaded.finish_derailed hpadding (not_lt.mp hwait) (by omega) hfinish
        have htotal := hderailed.run chunks hrest hopen
        obtain ⟨-, -, key, -, hwire⟩ := hheaded.keyed
        have hbytes := congrArg List.length hheaded.bytes
        have hlength := congrArg List.length hwire
        rw [length_encryptAll] at hlength
        rw [hweight, weight, hreceived, hempty] at htotal
        simp only [List.length_append, length_littleEndian, List.length_nil] at hbytes htotal
        omega

/-- What is sent encrypted: the magic value, methods, the padding and packets. -/
def text (methods padding : QByteArray) (ps : List Packet) : QByteArray :=
  littleEndian 4 magicSync ++ methods ++ (littleEndian 1 padding.length ++ padding ++ frames ps)

/-- The header in front of such a text. -/
theorem text_header {methods padding bytes remaining : QByteArray} {ps : List Packet}
    (htext : bytes ++ remaining = text methods padding ps) (hlength : 4 + methods.length + 1 ≤ bytes.length) :
    ofLittleEndian (bytes.take 4) = magicSync ∧ bytes.drop (4 + methods.length) ≠ [] ∧
      bytes.drop (4 + methods.length) ++ remaining = littleEndian 1 padding.length ++ padding ++ frames ps := by
  have hmagic : (littleEndian 4 magicSync).length = 4 := length_littleEndian 4 _
  have hheader : (littleEndian 4 magicSync ++ methods).length = 4 + methods.length := by
    rw [List.length_append, hmagic]
  refine ⟨?_, fun hc => ?_, ?_⟩
  · have htake := congrArg (List.take 4) htext
    rw [List.take_append_of_le_length (by omega), text, List.append_assoc, List.take_left' hmagic] at htake
    rw [htake, ofLittleEndian_littleEndian]
    rfl
  · have hnone := congrArg List.length hc
    rw [List.length_drop, List.length_nil] at hnone
    omega
  · rw [← List.drop_append_of_le_length (by omega), htext, text, List.drop_left' hheader]

/-- The end that began waits for the header. -/
structure Pending (crypto : Crypto σ) (out : QByteArray × σ) (padding : QByteArray) (ps : List Packet)
    (s : CMuleSocket σ) (n : ℕ) (rest : QByteArray) : Prop where
  /-- The own header was sent. -/
  state : s.cryptoState = ECrypto.ePending
  /-- There is no packet yet. -/
  received : s.received = []
  /-- There is no length of a packet yet. -/
  noLength : s.nextPacketLength = noLength
  /-- Nothing was read yet. -/
  position : s.inBuffer.uPosition = 0
  /-- Some bytes have arrived. -/
  length : s.inBuffer.bytes.length = n
  /-- The rest is to come. -/
  rest : ∃ remaining, Keyed crypto s out remaining rest ∧ s.inBuffer.bytes ++ remaining = text [0] padding ps

/-- A chunk for the end that began. -/
theorem Pending.receive_eq (UserHash reply : QByteArray) {padding : QByteArray} {ps : List Packet}
    {s : CMuleSocket σ} {chunk rest : QByteArray} (h : Pending crypto out padding ps s n (chunk ++ rest))
    (hchunk : chunk ≠ []) : ∃ s₁, Pending crypto out padding ps s₁ (n + chunk.length) rest ∧
      receive crypto UserHash reply s chunk = processStream crypto UserHash reply s₁ := by
  obtain ⟨remaining, ⟨hopen, hout, key, hkey, hwire⟩, htext⟩ := h.rest
  obtain ⟨first, second, key', rfl, hlength, hin, rfl⟩ := streamIn_keyed hkey hwire
  refine ⟨{ s with
      inBuffer := s.inBuffer.appendData first
      cryptoKey := some (out.2, key') }, ⟨h.state, h.received, h.noLength, h.position, ?_, second,
    ⟨hopen, hout, key', rfl, rfl⟩, (List.append_assoc _ _ _).trans htext⟩, ?_⟩
  · rw [InBuffer.appendData, List.length_append, h.length, hlength]
  · rw [receive, if_neg (not_or.mpr ⟨by rw [hopen]; decide, hchunk⟩), hin]

/-- The end that began receives the header of the other one. -/
theorem pending_beginning (padding : QByteArray) (ps : List Packet) :
    Beginning crypto UserHash reply out 5 padding ps (Pending crypto out padding ps) where
  short := by
    intro s n chunk rest h hshort
    by_cases hchunk : chunk = []
    · subst hchunk
      exact ⟨s, if_pos (Or.inr rfl), h⟩
    · obtain ⟨s₁, hnext, hreceive⟩ := h.receive_eq UserHash reply hchunk
      obtain ⟨-, ⟨-, -, key, hkey, -⟩, -⟩ := hnext.rest
      refine ⟨s₁, ?_, hnext⟩
      rw [hreceive, processStream, if_pos (by rw [hnext.state]; decide), processCrypto,
        if_pos (Or.inr hnext.state), if_pos (by rw [hkey]; rfl), if_pos (by rw [hnext.length]; exact hshort),
        Option.bind_some, if_pos (by rw [hnext.state]; decide)]
  long := by
    intro s n chunk rest h hn hlong
    have hchunk : chunk ≠ [] := fun hc => by
      rw [hc, List.length_nil] at hlong
      omega
    obtain ⟨s₁, hnext, hreceive⟩ := h.receive_eq UserHash reply hchunk
    obtain ⟨remaining, hkeyed, htext⟩ := hnext.rest
    have hkey : s₁.cryptoKey.isSome = true := by
      obtain ⟨-, -, key, hkey, -⟩ := hkeyed
      rw [hkey]
      rfl
    have hlength := hnext.length
    obtain ⟨hmagic, hnonempty, hbytes⟩ := text_header htext
      (show 4 + [(0 : UInt8)].length + 1 ≤ s₁.inBuffer.bytes.length by
        rw [hlength]
        exact hlong)
    have hshift : s₁.inBuffer.shiftData 5 = ⟨s₁.inBuffer.bytes.drop 5, 0⟩ := by
      rw [InBuffer.shiftData, if_neg (by omega), if_neg (by rw [hnext.position]; omega)]
    refine ⟨{ s₁ with
        inBuffer := s₁.inBuffer.shiftData 5
        cryptoState := ECrypto.ePadding }, remaining, ⟨rfl, hkeyed, hnext.received, hnext.noLength,
      by rw [hshift], by rw [hshift]; exact hnonempty, by rw [hshift]; exact hbytes⟩, ?_, ?_⟩
    · rw [hshift]
      dsimp only
      rw [List.length_drop]
      omega
    · rw [hreceive, processStream, if_pos (by rw [hnext.state]; decide), processCrypto,
        if_pos (Or.inr hnext.state), if_pos hkey, if_neg (by omega),
        if_neg (not_not.mpr hmagic), hlength]
      rfl
  header := by
    intro s n h
    obtain ⟨remaining, ⟨-, -, key, -, hwire⟩, htext⟩ := h.rest
    have hnone := congrArg List.length hwire
    have htotal := congrArg List.length htext
    rw [length_encryptAll] at hnone
    rw [text] at htotal
    simp only [List.length_append, length_littleEndian, List.length_nil, List.length_singleton,
      h.length] at hnone htotal
    omega

/-- The end that has no keys yet waits for the header. -/
structure Raw (exchange : Option (QByteArray → QByteArray)) (sent wire : QByteArray)
    (s : CMuleSocket σ) (n : ℕ) (rest : QByteArray) : Prop where
  /-- Nothing was received, or the own key was sent. -/
  state : s.cryptoState = ECrypto.eInit ∨ s.cryptoState = ECrypto.ePending
  /-- There are no keys. -/
  cryptoKey : s.cryptoKey = none
  /-- There is a key exchange or not. -/
  keyExchange : s.keyExchange = exchange
  /-- The connection is open. -/
  opened : s.disconnected = false
  /-- What was sent. -/
  outBuffer : s.outBuffer = sent
  /-- There is no packet yet. -/
  received : s.received = []
  /-- There is no length of a packet yet. -/
  noLength : s.nextPacketLength = noLength
  /-- Nothing was read yet. -/
  position : s.inBuffer.uPosition = 0
  /-- Some bytes have arrived. -/
  length : s.inBuffer.bytes.length = n
  /-- The rest is to come. -/
  bytes : s.inBuffer.bytes ++ rest = wire

theorem decryptAll_none (c : Cipher σ) (bytes : QByteArray) : decryptAll c none bytes = (bytes, none) := by
  induction bytes with
  | nil => rfl
  | cons b bytes ih =>
    rw [decryptAll, decryptByte, ih]

variable {exchange : Option (QByteArray → QByteArray)}

/-- A chunk for an end without keys. -/
theorem Raw.receive_eq (crypto : Crypto σ) (UserHash reply : QByteArray)
    {sent wire : QByteArray} {s : CMuleSocket σ} {chunk rest : QByteArray}
    (h : Raw exchange sent wire s n (chunk ++ rest)) (hchunk : chunk ≠ []) :
    ∃ s₁, Raw exchange sent wire s₁ (n + chunk.length) rest ∧ receive crypto UserHash reply s chunk =
        (processCrypto crypto UserHash reply s₁).bind packetsIf := by
  have hin : streamIn crypto s chunk = { s with inBuffer := s.inBuffer.appendData chunk } := by
    rw [streamIn, h.cryptoKey, Option.map_none, Option.map_none, decryptAll_none, ← h.cryptoKey]
  have hstate : s.cryptoState ≠ ECrypto.eDone := by
    rcases h.state with hc | hc <;> rw [hc] <;> decide
  refine ⟨{ s with inBuffer := s.inBuffer.appendData chunk }, ⟨h.state, h.cryptoKey, h.keyExchange,
    h.opened, h.outBuffer, h.received, h.noLength, h.position, ?_,
    (List.append_assoc _ _ _).trans h.bytes⟩, ?_⟩
  · rw [InBuffer.appendData, List.length_append, h.length]
  · rw [receive, if_neg (not_or.mpr ⟨by rw [h.opened]; decide, hchunk⟩), hin, processStream, if_pos hstate]
    rfl

/-- What is sent when the header was received. -/
def response (reply : QByteArray) : QByteArray :=
  littleEndian 4 magicSync ++ [0] ++ littleEndian 1 reply.length ++ reply

/-- What an end without keys has sent after that, and its key. -/
def answered (crypto : Crypto σ) (sent : QByteArray) (sendKey : σ) (reply : QByteArray) : QByteArray × σ :=
  (sent ++ (encryptAll crypto.cipher (some sendKey) (response reply)).1,
    (encryptAll crypto.cipher (some sendKey) (response reply)).2.getD sendKey)

/-- An end without keys takes the header. -/
theorem Raw.processKeys_eq {sent plain : QByteArray}
    {s : CMuleSocket σ} {rest padding : QByteArray} {ps : List Packet} (sendKey receiveKey : σ)
    (h : Raw exchange sent (plain ++ (encryptAll crypto.cipher (some receiveKey) (text [0, 0] padding ps)).1) s n rest)
    (hlong : plain.length + 7 ≤ n) :
    ∃ s' remaining, Headed crypto s' (answered crypto sent sendKey reply) padding ps remaining rest ∧
      s'.inBuffer.bytes.length + (plain.length + 6) = n ∧
      processKeys crypto s sendKey receiveKey plain.length (plain.length + 6) reply =
        processPadding n s' := by
  have hlength := h.length
  obtain ⟨part, hpart⟩ := List.prefix_of_prefix_length_le (List.prefix_append plain _) ⟨rest, h.bytes⟩ (by omega)
  have hbytes := h.bytes
  rw [← hpart, List.append_assoc, List.append_cancel_left_eq] at hbytes
  obtain ⟨first, second, htext, rfl, rfl⟩ := encryptAll_cut hbytes.symm
  obtain ⟨key, hkey⟩ := encryptAll_some crypto.cipher receiveKey first
  have hdecrypt := decryptAll_append crypto.cipher (some receiveKey) first []
  rw [List.append_nil, hkey, decryptAll, List.append_nil] at hdecrypt
  rw [← hpart, List.length_append, length_encryptAll] at hlength
  obtain ⟨hmagic, hnonempty, hrest⟩ := text_header htext.symm (show 4 + [(0 : UInt8), 0].length + 1 ≤ first.length by
      rw [List.length_cons, List.length_singleton]
      omega)
  have hshift : (InBuffer.mk (plain ++ first) 0).shiftData (plain.length + 6) = ⟨first.drop 6, 0⟩ := by
    rw [InBuffer.shiftData, if_neg (by rw [List.length_append]; omega), if_neg (Nat.not_lt_zero _),
      List.drop_append, List.drop_eq_nil_of_le (by omega), List.nil_append, Nat.add_sub_cancel_left]
  refine ⟨{ s with
      inBuffer := ⟨first.drop 6, 0⟩
      outBuffer := (answered crypto sent sendKey reply).1
      cryptoKey := some ((answered crypto sent sendKey reply).2, key)
      keyExchange := none
      cryptoState := ECrypto.ePadding }, second, ⟨rfl, ⟨h.opened, rfl, key, rfl, by rw [hkey]⟩, h.received,
    h.noLength, rfl, hnonempty, hrest⟩, ?_, ?_⟩
  · dsimp only
    rw [List.length_drop]
    omega
  · rw [processKeys, ← hpart, List.drop_left, List.take_left, hdecrypt]
    dsimp only
    rw [if_neg (not_not.mpr hmagic), h.position, hshift, List.length_append, hlength, streamOut,
      Option.map_some, Option.map_some, h.outBuffer]
    rfl

/-- An end without keys receives the header of the other one, if it finds the keys in the plain part. -/
theorem raw_beginning {sent plain padding : QByteArray}
    {ps : List Packet} {uPlain : ℕ} (hplain : plain.length = uPlain) (sendKey receiveKey : σ)
    (hshort : ∀ s n rest, Raw exchange sent (plain ++
      (encryptAll crypto.cipher (some receiveKey) (text [0, 0] padding ps)).1) s n rest →
        0 < n → n < uPlain + 7 → processCrypto crypto UserHash reply s = some s)
    (hlong : ∀ s n rest, Raw exchange sent (plain ++
      (encryptAll crypto.cipher (some receiveKey) (text [0, 0] padding ps)).1) s n rest →
        uPlain + 7 ≤ n → processCrypto crypto UserHash reply s =
          processKeys crypto s sendKey receiveKey uPlain (uPlain + 6) reply) :
    Beginning crypto UserHash reply (answered crypto sent sendKey reply) (uPlain + 6) padding ps
      (Raw exchange sent (plain ++ (encryptAll crypto.cipher (some receiveKey) (text [0, 0] padding ps)).1)) where
  short := by
    subst hplain
    intro s n chunk rest h hless
    by_cases hchunk : chunk = []
    · subst hchunk
      exact ⟨s, if_pos (Or.inr rfl), h⟩
    · obtain ⟨s₁, hnext, hreceive⟩ := h.receive_eq crypto UserHash reply hchunk
      have hpos := List.length_pos_iff.mpr hchunk
      refine ⟨s₁, ?_, hnext⟩
      rw [hreceive, hshort s₁ _ rest hnext (by omega) hless, Option.bind_some, packetsIf, if_pos]
      rcases hnext.state with hc | hc <;> rw [hc] <;> decide
  long := by
    subst hplain
    intro s n chunk rest h hn hmore
    have hchunk : chunk ≠ [] := fun hc => by
      rw [hc, List.length_nil] at hmore
      omega
    obtain ⟨s₁, hnext, hreceive⟩ := h.receive_eq crypto UserHash reply hchunk
    obtain ⟨s', remaining, hheaded, hlength, hkeys⟩ := hnext.processKeys_eq sendKey receiveKey hmore
    refine ⟨s', remaining, hheaded, hlength, ?_⟩
    rw [hreceive, hlong s₁ _ rest hnext hmore, hkeys]
    rfl
  header := by
    subst hplain
    intro s n h
    have htotal := congrArg List.length h.bytes
    rw [List.length_append, List.length_append, length_encryptAll, text, h.length] at htotal
    simp only [List.length_append, length_littleEndian, List.length_nil, List.length_cons] at htotal
    omega

theorem Raw.take {sent first second : QByteArray}
    {s : CMuleSocket σ} {rest : QByteArray} (h : Raw exchange sent (first ++ second) s n rest)
    (hn : first.length ≤ n) : s.inBuffer.bytes.take first.length = first := by
  have htake := congrArg (List.take first.length) h.bytes
  rwa [List.take_append_of_le_length (by rw [h.length]; exact hn), List.take_left] at htake

/-- Another client receives the header of the one that began. -/
theorem incoming_beginning {Prot : UInt8} (hprot : Prot ∉ plainProts) {Rand : ℕ} (hrand : Rand < 2 ^ 32)
    (padding : QByteArray) (ps : List Packet) :
    Beginning crypto UserHash reply (answered crypto [] (clientKey crypto UserHash magicServer Rand) reply)
      11 padding ps (Raw none [] ([Prot] ++ littleEndian 4 Rand ++ (encryptAll crypto.cipher
        (some (clientKey crypto UserHash magicRequester Rand)) (text [0, 0] padding ps)).1)) := by
  have hlength : ([Prot] ++ littleEndian 4 Rand).length = 5 := by
    rw [List.length_append, length_littleEndian]
    rfl
  have hhead : ∀ (s : CMuleSocket σ) n rest, Raw none [] ([Prot] ++ littleEndian 4 Rand ++
      (encryptAll crypto.cipher (some (clientKey crypto UserHash magicRequester Rand))
        (text [0, 0] padding ps)).1) s n rest → 0 < n → s.inBuffer.bytes.head? = some Prot := by
    intro s n rest h hpos
    have hbytes := h.bytes
    have hn := h.length
    cases hfirst : s.inBuffer.bytes with
    | nil =>
      rw [hfirst] at hn
      exact absurd hn hpos.ne
    | cons b bytes =>
      rw [hfirst] at hbytes
      exact congrArg some (List.cons.inj hbytes).1
  refine raw_beginning hlength _ _ (fun s n rest h hpos hless => ?_) fun s n rest h hmore => ?_
  · rw [processCrypto, if_pos h.state, if_neg (by rw [h.cryptoKey]; exact Bool.false_ne_true), h.keyExchange]
    dsimp only
    rw [hhead s n rest h hpos, Option.bind_some, if_neg hprot, if_pos (by rw [h.length]; exact hless)]
  · have htake := h.take (by rw [hlength]; omega)
    rw [hlength] at htake
    have hnumber : ofLittleEndian ((s.inBuffer.bytes.drop 1).take 4) = Rand := by
      have hdrop := congrArg (List.drop 1) htake
      rw [List.drop_take] at hdrop
      rw [hdrop]
      exact (ofLittleEndian_littleEndian 4 Rand).trans (Nat.mod_eq_of_lt hrand)
    rw [processCrypto, if_pos h.state, if_neg (by rw [h.cryptoKey]; exact Bool.false_ne_true), h.keyExchange]
    dsimp only
    rw [hhead s n rest h (by omega), Option.bind_some, if_neg hprot,
      if_neg (by rw [h.length]; exact not_lt.mpr hmore), hnumber]

/-- A client receives the header of the server. -/
theorem server_beginning {finalise : QByteArray → QByteArray} {pubKey sent : QByteArray}
    (hpub : pubKey.length = 96) (padding : QByteArray) (ps : List Packet) : Beginning crypto UserHash reply
      (answered crypto sent (serverKey crypto (finalise pubKey) magicRequester) reply) 102 padding ps
      (Raw (some finalise) sent (pubKey ++ (encryptAll crypto.cipher
        (some (serverKey crypto (finalise pubKey) magicServer)) (text [0, 0] padding ps)).1)) := by
  refine raw_beginning hpub _ _ (fun s n rest h _ hless => ?_) fun s n rest h hmore => ?_
  · rw [processCrypto, if_pos h.state, if_neg (by rw [h.cryptoKey]; exact Bool.false_ne_true), h.keyExchange]
    dsimp only
    rw [if_pos (by rw [h.length]; exact hless)]
  · have htake := h.take (by omega)
    rw [hpub] at htake
    rw [processCrypto, if_pos h.state, if_neg (by rw [h.cryptoKey]; exact Bool.false_ne_true), h.keyExchange]
    dsimp only
    rw [if_neg (by rw [h.length]; exact not_lt.mpr hmore), htake]

end Sessions

section Sending

variable {σ : Type*} (crypto : Crypto σ)

/-- Packets are sent one after the other. -/
def sendAll (s : CMuleSocket σ) (ps : List Packet) : CMuleSocket σ := ps.foldl (sendPacket crypto) s

theorem streamOut_keyed {s : CMuleSocket σ} {sendKey key : σ} (hkey : s.cryptoKey = some (sendKey, key))
    (data : QByteArray) : ∃ sendKey', (encryptAll crypto.cipher (some sendKey) data).2 = some sendKey' ∧
      streamOut crypto s data = { s with
        outBuffer := s.outBuffer ++ (encryptAll crypto.cipher (some sendKey) data).1
        cryptoKey := some (sendKey', key) } := by
  obtain ⟨sendKey', hnext⟩ := encryptAll_some crypto.cipher sendKey data
  refine ⟨sendKey', hnext, ?_⟩
  rw [streamOut, hkey, Option.map_some, Option.map_some]
  dsimp only
  rw [hnext, Option.getD_some]

variable {crypto}

/-- Packets go out encrypted, one behind the other. -/
theorem sendAll_keyed {s : CMuleSocket σ} {sendKey key : σ} (hkey : s.cryptoKey = some (sendKey, key))
    (ps : List Packet) : ∃ sendKey', sendAll crypto s ps = { s with
      outBuffer := s.outBuffer ++ (encryptAll crypto.cipher (some sendKey) (frames ps)).1
      cryptoKey := some (sendKey', key) } := by
  induction ps generalizing s sendKey with
  | nil =>
    refine ⟨sendKey, ?_⟩
    rw [← hkey, frames, List.flatMap_nil, encryptAll, List.append_nil]
    rfl
  | cons p ps ih =>
    obtain ⟨first, hfirst, hout⟩ := streamOut_keyed crypto hkey ([p.2] ++ littleEndian 4 p.1.length)
    obtain ⟨second, hsecond, hout'⟩ := streamOut_keyed crypto (s := { s with
      outBuffer := s.outBuffer ++ (encryptAll crypto.cipher (some sendKey) ([p.2] ++ littleEndian 4 p.1.length)).1
      cryptoKey := some (first, key) }) rfl p.1
    have hframe : encryptAll crypto.cipher (some sendKey) (frame p) =
        ((encryptAll crypto.cipher (some sendKey) ([p.2] ++ littleEndian 4 p.1.length)).1 ++
          (encryptAll crypto.cipher (some first) p.1).1, some second) := by
      rw [frame, encryptAll_append crypto.cipher (some sendKey) ([p.2] ++ littleEndian 4 p.1.length), hfirst, hsecond]
    obtain ⟨last, hall⟩ := ih (s := sendPacket crypto s p) (by rw [sendPacket, hout, hout'])
    refine ⟨last, hall.trans ?_⟩
    rw [sendPacket, hout, hout', frames_cons, encryptAll_append crypto.cipher (some sendKey) (frame p), hframe]
    dsimp only
    rw [List.append_assoc, List.append_assoc, List.append_assoc]

/-- What was sent, behind what the end with the keys sends. -/
theorem Sent.sendAll {s : CMuleSocket σ} {sent : QByteArray} {sendKey : σ} {reply : QByteArray}
    (h : Sent s (answered crypto sent sendKey reply)) (ps : List Packet) :
    (sendAll crypto s ps).outBuffer = sent ++ (encryptAll crypto.cipher (some sendKey) (text [0] reply ps)).1 := by
  obtain ⟨hout, key, hkey⟩ := h
  obtain ⟨later, hlater⟩ := encryptAll_some crypto.cipher sendKey (response reply)
  obtain ⟨last, hall⟩ := sendAll_keyed hkey ps
  have htext : text [0] reply ps = response reply ++ frames ps := by
    rw [text, response]
    simp only [List.append_assoc]
  rw [hall, hout, answered, htext, encryptAll_append, hlater, Option.getD_some]
  dsimp only
  rw [List.append_assoc]

/-- The client that begins has sent its header and the packets behind it. -/
theorem initCryptoClient_sendAll (crypto : Crypto σ) (UserHash : QByteArray) (Prot : UInt8) (Rand : ℕ)
    (padding : QByteArray)
    (ps : List Packet) : ∃ sendKey,
    sendAll crypto (initCryptoClient crypto UserHash Prot Rand padding) ps =
      { (CMuleSocket.new : CMuleSocket σ) with
        outBuffer := [Prot] ++ littleEndian 4 Rand ++ (encryptAll crypto.cipher
          (some (clientKey crypto UserHash magicRequester Rand)) (text [0, 0] padding ps)).1
        cryptoKey := some (sendKey, clientKey crypto UserHash magicServer Rand)
        cryptoState := ECrypto.ePending } := by
  have htext : text [0, 0] padding ps =
      (littleEndian 4 magicSync ++ [0, 0] ++ littleEndian 1 padding.length ++ padding) ++ frames ps := by
    rw [text]
    simp only [List.append_assoc]
  obtain ⟨sendKey, hkey, hout⟩ := streamOut_keyed crypto (s := { (CMuleSocket.new : CMuleSocket σ) with
      outBuffer := [Prot] ++ littleEndian 4 Rand
      cryptoKey := some (clientKey crypto UserHash magicRequester Rand, clientKey crypto UserHash magicServer Rand)
      cryptoState := ECrypto.ePending }) rfl
    (littleEndian 4 magicSync ++ [0, 0] ++ littleEndian 1 padding.length ++ padding)
  obtain ⟨last, hall⟩ := sendAll_keyed
    (s := initCryptoClient crypto UserHash Prot Rand padding) (by rw [initCryptoClient, hout]) ps
  refine ⟨last, hall.trans ?_⟩
  rw [initCryptoClient, hout, htext, encryptAll_append crypto.cipher _ (_ ++ padding), hkey]
  dsimp only
  rw [List.append_assoc ([Prot] ++ littleEndian 4 Rand)]

end Sending

section Limits

variable {σ : Type*} {crypto : Crypto σ} {UserHash reply : QByteArray}

/-- No packet that was received is too long, and the next one is not unless the connection was closed
for it. -/
def Bounded (s : CMuleSocket σ) : Prop :=
  (∀ p ∈ s.received, Sendable p) ∧
    (s.disconnected = true ∨ s.nextPacketLength = noLength ∨ s.nextPacketLength ≤ maxLength)

/-- A packet that is taken is as long as its header said. -/
theorem takePacket_bounded {s s' : CMuleSocket σ} {more : Bool} (hreceived : ∀ p ∈ s.received, Sendable p)
    (hshort : s.nextPacketLength ≤ maxLength) (h : takePacket s = some (more, s')) :
    (∀ p ∈ s'.received, Sendable p) ∧ (s'.nextPacketLength = noLength ∨ s'.nextPacketLength ≤ maxLength) := by
  rw [takePacket] at h
  split_ifs at h with hwait
  · obtain ⟨-, rfl⟩ := Prod.mk.inj (Option.some.inj h)
    exact ⟨hreceived, Or.inr hshort⟩
  · obtain ⟨⟨data, b⟩, hread, hresult⟩ := Option.map_eq_some_iff.mp h
    obtain ⟨-, rfl⟩ := Prod.mk.inj hresult
    obtain ⟨-, -, -, hlength⟩ := readData_some hread
    refine ⟨fun p hp => ?_, Or.inl rfl⟩
    rcases List.mem_append.mp hp with hold | hnew
    · exact hreceived p hold
    · rw [List.mem_singleton.mp hnew]
      exact hlength.le.trans hshort

/-- A round closes the connection for a packet that is too long, and ends. -/
theorem round_bounded {s s' : CMuleSocket σ} {more : Bool} (hreceived : ∀ p ∈ s.received, Sendable p)
    (hshort : s.nextPacketLength = noLength ∨ s.nextPacketLength ≤ maxLength) (h : round s = some (more, s')) :
    (∀ p ∈ s'.received, Sendable p) ∧ ((more = false ∧ s'.disconnected = true) ∨
      s'.nextPacketLength = noLength ∨ s'.nextPacketLength ≤ maxLength) := by
  rw [round] at h
  split_ifs at h with hnone hsize
  · obtain ⟨-, rfl⟩ := Prod.mk.inj (Option.some.inj h)
    exact ⟨hreceived, Or.inr hshort⟩
  · obtain ⟨s₁, hheader, hrest⟩ := Option.bind_eq_some_iff.mp h
    have hsame : s₁.received = s.received := by
      obtain ⟨Prot, -, hmap⟩ := Option.bind_eq_some_iff.mp hheader
      obtain ⟨Length, -, rfl⟩ := Option.map_eq_some_iff.mp hmap
      rfl
    split_ifs at hrest with hlong
    · obtain ⟨rfl, rfl⟩ := Prod.mk.inj (Option.some.inj hrest)
      exact ⟨hsame ▸ hreceived, Or.inl ⟨rfl, rfl⟩⟩
    · obtain ⟨hall, hnext⟩ := takePacket_bounded (hsame ▸ hreceived) (not_lt.mp hlong) hrest
      exact ⟨hall, Or.inr hnext⟩
  · obtain ⟨hall, hnext⟩ := takePacket_bounded hreceived (hshort.resolve_left hnone) h
    exact ⟨hall, Or.inr hnext⟩

/-- The loop takes no packet that is too long. -/
theorem processPackets_bounded {fuel : ℕ} {s s' : CMuleSocket σ} (hreceived : ∀ p ∈ s.received, Sendable p)
    (hshort : s.nextPacketLength = noLength ∨ s.nextPacketLength ≤ maxLength)
    (h : processPackets fuel s = some s') : Bounded s' := by
  induction fuel generalizing s with
  | zero => exact absurd h nofun
  | succ fuel ih =>
    obtain ⟨⟨more, s₁⟩, hround, hrest⟩ := Option.bind_eq_some_iff.mp h
    obtain ⟨hall, hnext⟩ := round_bounded hreceived hshort hround
    dsimp only at hrest
    split_ifs at hrest with hmore
    · exact ih hall (hnext.resolve_left fun hc => absurd (hc.1.symm.trans hmore) nofun) hrest
    · rw [← Option.some.inj hrest]
      exact ⟨hall, hnext.imp_left And.right⟩

/-- The handshake takes what it consumes from the front of the buffer, and receives no packets. -/
structure Progress (s s' : CMuleSocket σ) : Prop where
  /-- No packet is received. -/
  received : s'.received = s.received
  /-- No length of a packet is read. -/
  nextPacketLength : s'.nextPacketLength = s.nextPacketLength
  /-- The rest is an end of what has arrived, which may be decrypted now. -/
  rest : ∃ arrived : QByteArray, arrived.length = s.inBuffer.bytes.length ∧ s'.inBuffer.bytes <:+ arrived

theorem shiftData_suffix (b : InBuffer) (uOffset : ℕ) : (b.shiftData uOffset).bytes <:+ b.bytes := by
  by_cases hmore : uOffset > b.bytes.length
  · rw [InBuffer.shiftData, if_pos hmore]
  · rw [InBuffer.shiftData, if_neg hmore]
    exact List.drop_suffix _ _

theorem processPadding_progress (uRawSize : ℕ) {s : CMuleSocket σ} (h : s.inBuffer.bytes ≠ []) :
    ∃ s', processPadding uRawSize s = some s' ∧ s'.received = s.received ∧
      s'.nextPacketLength = s.nextPacketLength ∧ s'.inBuffer.bytes <:+ s.inBuffer.bytes := by
  rw [processPadding, List.head?_eq_some_head h, Option.map_some]
  split_ifs
  · exact ⟨s, rfl, rfl, rfl, List.suffix_rfl⟩
  · exact ⟨_, rfl, rfl, rfl, shiftData_suffix _ _⟩

/-- The header and the padding are taken from the front. -/
theorem processKeys_progress {s : CMuleSocket σ} (sendKey receiveKey : σ) {uPlain uShift : ℕ}
    (hplain : uPlain ≤ uShift) (hshift : uShift < s.inBuffer.bytes.length) :
    ∃ s', processKeys crypto s sendKey receiveKey uPlain uShift reply = some s' ∧ Progress s s' := by
  have harrived : (s.inBuffer.bytes.take uPlain ++ (decryptAll crypto.cipher (some receiveKey)
      (s.inBuffer.bytes.drop uPlain)).1).length = s.inBuffer.bytes.length := by
    rw [List.length_append, length_decryptAll, List.length_take, List.length_drop]
    omega
  rw [processKeys]
  dsimp only
  split_ifs with hmagic
  · exact ⟨_, rfl, rfl, rfl, _, harrived, List.suffix_rfl⟩
  · obtain ⟨s', hpadding, hreceived, hlength, hrest⟩ := processPadding_progress
      (s.inBuffer.bytes.take uPlain ++ (decryptAll crypto.cipher (some receiveKey)
        (s.inBuffer.bytes.drop uPlain)).1).length
      (s := { streamOut crypto
          { s with
            inBuffer := InBuffer.shiftData ⟨s.inBuffer.bytes.take uPlain ++
              (decryptAll crypto.cipher (some receiveKey) (s.inBuffer.bytes.drop uPlain)).1,
              s.inBuffer.uPosition⟩ uShift
            cryptoKey := some (sendKey, (decryptAll crypto.cipher (some receiveKey)
              (s.inBuffer.bytes.drop uPlain)).2.getD receiveKey)
            cryptoState := ECrypto.ePadding }
          (littleEndian 4 magicSync ++ [0] ++ littleEndian 1 reply.length ++ reply) with
        keyExchange := none }) (by
          rw [streamOut, InBuffer.shiftData, if_neg (by rw [harrived]; exact not_lt.mpr hshift.le)]
          exact fun hc => absurd (List.drop_eq_nil_iff.mp hc) (by rw [harrived]; exact not_le.mpr hshift))
    exact ⟨s', hpadding, hreceived, hlength, _, harrived, hrest.trans (shiftData_suffix _ _)⟩

/-- The handshake consumes only what was received. -/
theorem processCrypto_progress (crypto : Crypto σ) (UserHash reply : QByteArray) {s : CMuleSocket σ}
    (h : s.inBuffer.bytes ≠ []) : ∃ s', processCrypto crypto UserHash reply s = some s' ∧ Progress s s' := by
  have hsame : Progress s s := ⟨rfl, rfl, _, rfl, List.suffix_rfl⟩
  rw [processCrypto]
  by_cases hstate : s.cryptoState = ECrypto.eInit ∨ s.cryptoState = ECrypto.ePending
  · rw [if_pos hstate]
    by_cases hkey : s.cryptoKey.isSome = true
    · rw [if_pos hkey]
      by_cases hsize : s.inBuffer.bytes.length < 6
      · rw [if_pos hsize]
        exact ⟨s, rfl, hsame⟩
      · rw [if_neg hsize]
        split_ifs
        · exact ⟨_, rfl, rfl, rfl, _, rfl, List.suffix_rfl⟩
        · obtain ⟨s', hpadding, hreceived, hlength, hrest⟩ :=
            processPadding_progress s.inBuffer.bytes.length (s := { s with
              inBuffer := s.inBuffer.shiftData 5
              cryptoState := ECrypto.ePadding }) (by
                rw [InBuffer.shiftData, if_neg (by omega)]
                exact fun hc => absurd (List.drop_eq_nil_iff.mp hc) (by omega))
          exact ⟨s', hpadding, hreceived, hlength, _, rfl, hrest.trans (shiftData_suffix _ _)⟩
    · rw [if_neg hkey]
      cases s.keyExchange with
      | some finalise =>
        dsimp only
        by_cases hsize : s.inBuffer.bytes.length < 96 + 4 + 2 + 1
        · rw [if_pos hsize]
          exact ⟨s, rfl, hsame⟩
        · rw [if_neg hsize]
          exact processKeys_progress _ _ (by decide) (by omega)
      | none =>
        dsimp only
        rw [List.head?_eq_some_head h, Option.bind_some]
        by_cases hprot : s.inBuffer.bytes.head h ∈ plainProts
        · rw [if_pos hprot]
          exact ⟨_, rfl, rfl, rfl, _, rfl, List.suffix_rfl⟩
        · rw [if_neg hprot]
          by_cases hsize : s.inBuffer.bytes.length < 12
          · rw [if_pos hsize]
            exact ⟨s, rfl, hsame⟩
          · rw [if_neg hsize]
            exact processKeys_progress _ _ (by decide) (by omega)
  · rw [if_neg hstate]
    obtain ⟨s', hpadding, hreceived, hlength, hrest⟩ :=
      processPadding_progress s.inBuffer.bytes.length h
    exact ⟨s', hpadding, hreceived, hlength, _, rfl, hrest⟩

/-- A chunk brings no packet that is too long. -/
theorem Bounded.chunk {s s' : CMuleSocket σ} {chunk : QByteArray} (hs : Bounded s)
    (h : receive crypto UserHash reply s chunk = some s') : Bounded s' := by
  rw [receive] at h
  split_ifs at h with hskip
  · rw [← Option.some.inj h]
    exact hs
  · have hshort := hs.2.resolve_left (not_or.mp hskip).1
    have hbytes : (streamIn crypto s chunk).inBuffer.bytes ≠ [] := by
      intro hc
      have hlength := congrArg List.length (List.append_eq_nil_iff.mp hc).2
      rw [length_decryptAll] at hlength
      exact (not_or.mp hskip).2 (List.length_eq_zero_iff.mp hlength)
    obtain ⟨s₁, hcrypto, hrest⟩ := Option.bind_eq_some_iff.mp h
    have hsame : s₁.received = s.received ∧ s₁.nextPacketLength = s.nextPacketLength := by
      split_ifs at hcrypto
      · obtain ⟨s₂, hprogress, hreceived, hlength, -⟩ :=
          processCrypto_progress crypto UserHash reply hbytes
        rw [hprogress] at hcrypto
        rw [← Option.some.inj hcrypto]
        exact ⟨hreceived, hlength⟩
      · rw [← Option.some.inj hcrypto]
        exact ⟨rfl, rfl⟩
    split_ifs at hrest
    · rw [← Option.some.inj hrest, Bounded, hsame.1, hsame.2]
      exact ⟨hs.1, Or.inr hshort⟩
    · exact processPackets_bounded (hsame.1 ▸ hs.1) (hsame.2 ▸ hshort) hrest

theorem Bounded.run (chunks : List QByteArray) {s s' : CMuleSocket σ} (hs : Bounded s)
    (h : chunks.foldlM (receive crypto UserHash reply) s = some s') : Bounded s' := by
  induction chunks generalizing s with
  | nil => exact Option.some.inj h ▸ hs
  | cons chunk chunks ih =>
    rw [List.foldlM_cons] at h
    obtain ⟨s₁, hreceive, hrest⟩ := Option.bind_eq_some_iff.mp h
    exact ih (hs.chunk hreceive) hrest

section

variable {out : QByteArray × σ} {uShift : ℕ} {padding : QByteArray} {ps : List Packet}
  {Before : CMuleSocket σ → ℕ → QByteArray → Prop} (h : Beginning crypto UserHash reply out uShift padding ps Before)
  (hpadding : padding.length < 256)

include h hpadding

/-- All is received as it was sent exactly if the padding is seen and no packet is too long. -/
theorem Beginning.exact_iff (chunks : List QByteArray) {s : CMuleSocket σ}
    (hbefore : Before s 0 chunks.flatten) (hs : Bounded s) :
    (∃ s', chunks.foldlM (receive crypto UserHash reply) s = some s' ∧ Exact s' ps) ↔
      PaddingSeen uShift padding.length 0 chunks ∧ ∀ p ∈ ps, Sendable p := by
  constructor
  · rintro ⟨s', hrun, hexact⟩
    have hps : ∀ p ∈ ps, Sendable p := by
      obtain ⟨-, -, hreceived, -⟩ := hexact
      exact hreceived ▸ (hs.run chunks hrun).1
    exact ⟨(h.run_iff hpadding hps chunks hbefore (Nat.succ_pos _)).2 ⟨s', hrun, hexact⟩, hps⟩
  · rintro ⟨hseen, hps⟩
    obtain ⟨s', hrun, hexact, -⟩ := (h.run_iff hpadding hps chunks hbefore (Nat.succ_pos _)).1 hseen
    exact ⟨s', hrun, hexact⟩

/-- If all is received as it was sent, the answer was sent. -/
theorem Beginning.sent {chunks : List QByteArray} {s s' : CMuleSocket σ}
    (hbefore : Before s 0 chunks.flatten) (hs : Bounded s)
    (hrun : chunks.foldlM (receive crypto UserHash reply) s = some s') (hexact : Exact s' ps) : Sent s' out := by
  obtain ⟨hseen, hps⟩ := (h.exact_iff hpadding chunks hbefore hs).mp ⟨s', hrun, hexact⟩
  obtain ⟨s₁, hrun₁, -, hsent⟩ :=
    (h.run_iff hpadding hps chunks hbefore (Nat.succ_pos _)).1 hseen
  rw [hrun] at hrun₁
  exact Option.some.inj hrun₁ ▸ hsent

end

end Limits

section Handshakes

variable {σ : Type*} (crypto : Crypto σ)

/-- Two clients, of which one begins. -/
structure Clients where
  /-- The hash of the other one. -/
  UserHash : QByteArray
  /-- The marker in front, which is no protocol. -/
  Prot : UInt8
  /-- The random number of the keys. -/
  Rand : ℕ
  /-- The padding of the one that begins. -/
  padding : QByteArray
  /-- The padding of the other one. -/
  reply : QByteArray
  /-- The packets of the one that begins. -/
  packets : List Packet
  /-- The packets of the other one. -/
  answers : List Packet
  /-- The marker is chosen again if it is a protocol. -/
  prot_notMem : Prot ∉ plainProts
  /-- The random number has 32 bits. -/
  rand_lt : Rand < 2 ^ 32
  /-- The length of the padding is one byte. -/
  padding_lt : padding.length < 256
  /-- The length of the other padding is one byte too. -/
  reply_lt : reply.length < 256

/-- The one that begins, with its packets sent. -/
def Clients.initiator (c : Clients) : CMuleSocket σ :=
  sendAll crypto (initCryptoClient crypto c.UserHash c.Prot c.Rand c.padding) c.packets

/-- The other one, when it has received some chunks. -/
def Clients.receiver (c : Clients) (chunks : List QByteArray) : Option (CMuleSocket σ) :=
  chunks.foldlM (receive crypto c.UserHash c.reply) CMuleSocket.new

/-- A client and a server. -/
structure ServerSession where
  /-- The marker in front. -/
  Prot : UInt8
  /-- The public key of the client. -/
  ownKey : QByteArray
  /-- The padding of the client behind it. -/
  ownPadding : QByteArray
  /-- `FinaliseKeyExchange` of the client. -/
  finalise : QByteArray → QByteArray
  /-- The public key of the server. -/
  pubKey : QByteArray
  /-- What the server makes of the public key of the client. -/
  secret : QByteArray
  /-- The padding of the server. -/
  padding : QByteArray
  /-- The padding of the client's answer. -/
  reply : QByteArray
  /-- The packets of the server. -/
  packets : List Packet
  /-- The packets of the client. -/
  answers : List Packet
  /-- The key has 96 bytes. -/
  length_pubKey : pubKey.length = 96
  /-- Both ends have the same secret. -/
  agreed : finalise pubKey = secret
  /-- The length of the padding is one byte. -/
  padding_lt : padding.length < 256

/-- The client, with its key sent. -/
def ServerSession.client (c : ServerSession) : CMuleSocket σ :=
  initCryptoServer c.Prot c.ownKey c.finalise c.ownPadding

/-- What the server sends: its key, and the header, its padding and its packets encrypted. -/
def ServerSession.wire (c : ServerSession) : QByteArray :=
  c.pubKey ++ (encryptAll crypto.cipher (some (serverKey crypto c.secret magicServer))
    (text [0, 0] c.padding c.packets)).1

variable {crypto}

theorem CMuleSocket.new_bounded : Bounded (CMuleSocket.new : CMuleSocket σ) :=
  ⟨nofun, Or.inr (Or.inl rfl)⟩

variable {chunks : List QByteArray} (c : Clients)

theorem Clients.raw (h : chunks.flatten = (c.initiator crypto).outBuffer) :
    Raw none [] ([c.Prot] ++ littleEndian 4 c.Rand ++ (encryptAll crypto.cipher
      (some (clientKey crypto c.UserHash magicRequester c.Rand)) (text [0, 0] c.padding c.packets)).1)
      (CMuleSocket.new : CMuleSocket σ) 0 chunks.flatten := by
  obtain ⟨sendKey, hsent⟩ :=
    initCryptoClient_sendAll crypto c.UserHash c.Prot c.Rand c.padding c.packets
  rw [Clients.initiator, hsent] at h
  exact ⟨Or.inl rfl, rfl, rfl, rfl, rfl, rfl, rfl, rfl, rfl, h⟩

/-- The client that began before anything has arrived. -/
theorem Clients.pending (h : chunks.flatten = (encryptAll crypto.cipher
      (some (clientKey crypto c.UserHash magicServer c.Rand)) (text [0] c.reply c.answers)).1) :
    Bounded (c.initiator crypto) ∧ ∃ out,
      Pending crypto out c.reply c.answers (c.initiator crypto) 0 chunks.flatten := by
  obtain ⟨sendKey, hsent⟩ :=
    initCryptoClient_sendAll crypto c.UserHash c.Prot c.Rand c.padding c.packets
  rw [Clients.initiator, hsent]
  refine ⟨⟨fun _ hp => absurd hp List.not_mem_nil, Or.inr (Or.inl rfl)⟩,
    ([c.Prot] ++ littleEndian 4 c.Rand ++ (encryptAll crypto.cipher
      (some (clientKey crypto c.UserHash magicRequester c.Rand)) (text [0, 0] c.padding c.packets)).1,
      sendKey), rfl, rfl, rfl, rfl, rfl, text [0] c.reply c.answers, ⟨rfl, rfl, ?_⟩, List.nil_append _⟩
  exact ⟨clientKey crypto c.UserHash magicServer c.Rand, rfl, h.symm⟩

theorem Clients.receiver_iff (h : chunks.flatten = (c.initiator crypto).outBuffer) :
    (∃ s, c.receiver crypto chunks = some s ∧ Exact s c.packets) ↔
      PaddingSeen 11 c.padding.length 0 chunks ∧ ∀ p ∈ c.packets, Sendable p :=
  (incoming_beginning c.prot_notMem c.rand_lt c.padding c.packets).exact_iff c.padding_lt chunks
    (c.raw h) CMuleSocket.new_bounded

theorem Clients.receiver_sends (h : chunks.flatten = (c.initiator crypto).outBuffer) {s : CMuleSocket σ}
    (hrun : c.receiver crypto chunks = some s) (hexact : Exact s c.packets) :
    (sendAll crypto s c.answers).outBuffer = (encryptAll crypto.cipher
      (some (clientKey crypto c.UserHash magicServer c.Rand)) (text [0] c.reply c.answers)).1 := by
  have hsent := (incoming_beginning c.prot_notMem c.rand_lt c.padding c.packets).sent c.padding_lt
    (c.raw h) CMuleSocket.new_bounded hrun hexact
  rw [hsent.sendAll c.answers, List.nil_append]

theorem Clients.initiator_iff (UserHash reply : QByteArray) (h : chunks.flatten = (encryptAll crypto.cipher
      (some (clientKey crypto c.UserHash magicServer c.Rand)) (text [0] c.reply c.answers)).1) :
    (∃ s, chunks.foldlM (receive crypto UserHash reply) (c.initiator crypto) = some s ∧ Exact s c.answers) ↔
        PaddingSeen 5 c.reply.length 0 chunks ∧ ∀ p ∈ c.answers, Sendable p := by
  obtain ⟨hbounded, out, hpending⟩ := c.pending h
  exact (pending_beginning c.reply c.answers).exact_iff c.reply_lt chunks hpending hbounded

theorem ServerSession.raw (c : ServerSession) (h : chunks.flatten = c.wire crypto) :
    Raw (some c.finalise) ([c.Prot] ++ c.ownKey ++ c.ownPadding) (c.pubKey ++
      (encryptAll crypto.cipher (some (serverKey crypto (c.finalise c.pubKey) magicServer))
        (text [0, 0] c.padding c.packets)).1) (c.client : CMuleSocket σ) 0 chunks.flatten :=
  ⟨Or.inr rfl, rfl, rfl, rfl, rfl, rfl, rfl, rfl, rfl, by rw [c.agreed]; exact h⟩

theorem ServerSession.client_iff (c : ServerSession) (UserHash : QByteArray) (h : chunks.flatten = c.wire crypto) :
    (∃ s, chunks.foldlM (receive crypto UserHash c.reply) c.client = some s ∧ Exact s c.packets) ↔
      PaddingSeen 102 c.padding.length 0 chunks ∧ ∀ p ∈ c.packets, Sendable p :=
  (server_beginning c.length_pubKey c.padding c.packets).exact_iff c.padding_lt chunks (c.raw h)
    ⟨fun _ hp => absurd hp List.not_mem_nil, Or.inr (Or.inl rfl)⟩

theorem ServerSession.client_sends (c : ServerSession) {UserHash : QByteArray} (h : chunks.flatten = c.wire crypto)
    {s : CMuleSocket σ} (hrun : chunks.foldlM (receive crypto UserHash c.reply) c.client = some s)
    (hexact : Exact s c.packets) : (sendAll crypto s c.answers).outBuffer = [c.Prot] ++ c.ownKey ++ c.ownPadding ++
      (encryptAll crypto.cipher (some (serverKey crypto c.secret magicRequester)) (text [0] c.reply c.answers)).1 := by
  have hsent := (server_beginning c.length_pubKey c.padding c.packets).sent c.padding_lt (c.raw h)
    ⟨fun _ hp => absurd hp List.not_mem_nil, Or.inr (Or.inl rfl)⟩ hrun hexact
  rw [hsent.sendAll c.answers, c.agreed]

/-- Each end receives exactly what the other one sent, exactly if the read that completes the header
has the whole padding too, or the padding is longer than all that was received, and no packet is too long.
The handshake consumes nothing that was not received. -/
theorem handshake_exact (crypto : Crypto σ) :
    (∀ (c : Clients) (chunks : List QByteArray), chunks.flatten = (c.initiator crypto).outBuffer →
      ((∃ s, c.receiver crypto chunks = some s ∧ Exact s c.packets) ↔
        PaddingSeen 11 c.padding.length 0 chunks ∧ ∀ p ∈ c.packets, Sendable p) ∧
      ∀ s, c.receiver crypto chunks = some s → Exact s c.packets →
        ∀ (UserHash reply : QByteArray) (answer : List QByteArray),
          answer.flatten = (sendAll crypto s c.answers).outBuffer →
          ((∃ s', answer.foldlM (receive crypto UserHash reply) (c.initiator crypto) = some s' ∧ Exact s' c.answers) ↔
              PaddingSeen 5 c.reply.length 0 answer ∧ ∀ p ∈ c.answers, Sendable p)) ∧
    (∀ (c : ServerSession) (UserHash : QByteArray) (chunks : List QByteArray), chunks.flatten = c.wire crypto →
      ((∃ s, chunks.foldlM (receive crypto UserHash c.reply) c.client = some s ∧ Exact s c.packets) ↔
        PaddingSeen 102 c.padding.length 0 chunks ∧ ∀ p ∈ c.packets, Sendable p) ∧
      ∀ s, chunks.foldlM (receive crypto UserHash c.reply) c.client = some s → Exact s c.packets →
        (sendAll crypto s c.answers).outBuffer = [c.Prot] ++ c.ownKey ++ c.ownPadding ++
          (encryptAll crypto.cipher (some (serverKey crypto c.secret magicRequester)) (text [0] c.reply c.answers)).1) ∧
    (∀ (UserHash reply : QByteArray) (s : CMuleSocket σ), s.inBuffer.bytes ≠ [] →
      ∃ s', processCrypto crypto UserHash reply s = some s' ∧ Progress s s') := by
  refine ⟨fun c chunks hchunks => ⟨c.receiver_iff hchunks, fun s hrun hexact UserHash reply answer h => ?_⟩,
    fun c UserHash chunks hchunks => ⟨c.client_iff UserHash hchunks, fun s hrun hexact => ?_⟩,
    fun UserHash reply s hbytes => processCrypto_progress crypto UserHash reply hbytes⟩
  · rw [c.receiver_sends hchunks hrun hexact] at h
    exact c.initiator_iff UserHash reply h
  · exact c.client_sends hchunks hrun hexact

/-- Algorithms to try the handshake with. -/
def sample : Crypto UInt8 where
  cipher := feedback
  setup := fun key => key.foldl (fun state byte => state + byte) 0
  md5 := id

/-- Two clients with three bytes of padding and a packet. -/
def clients : Clients where
  UserHash := [1, 2, 3, 4, 5, 6, 7, 8, 9, 10, 11, 12, 13, 14, 15, 16]
  Prot := 1
  Rand := 258
  padding := [1, 2, 3]
  reply := [4, 5]
  packets := [([7, 8], 0xC5)]
  answers := []
  prot_notMem := by decide
  rand_lt := by decide
  padding_lt := by decide
  reply_lt := by decide

/-- The packet is received if all arrives at once. -/
theorem handshake_exact_once : ∃ s, clients.receiver sample [(clients.initiator sample).outBuffer] =
    some s ∧ Exact s clients.packets :=
  (((handshake_exact sample).1 clients [(clients.initiator sample).outBuffer]
    (List.append_nil _)).1).mpr ⟨Or.inr (by decide), by simp [clients, Sendable, maxLength]⟩

/-- With one byte of the padding behind the header the connection is closed, and there is no packet. -/
theorem handshake_cut :
    [(clients.initiator sample).outBuffer.take 13, (clients.initiator sample).outBuffer.drop 13].flatten =
      (clients.initiator sample).outBuffer ∧
    (∃ s, clients.receiver sample [(clients.initiator sample).outBuffer.take 13,
      (clients.initiator sample).outBuffer.drop 13] = some s ∧ s.received = [] ∧ s.disconnected = true) ∧
    ¬ ∃ s, clients.receiver sample [(clients.initiator sample).outBuffer.take 13,
      (clients.initiator sample).outBuffer.drop 13] = some s ∧ Exact s clients.packets := by
  have hrun : (clients.receiver sample [(clients.initiator sample).outBuffer.take 13,
      (clients.initiator sample).outBuffer.drop 13]).map (fun s => (s.received, s.disconnected)) = some ([], true) := by
    decide
  obtain ⟨s, hs, hlast⟩ := Option.map_eq_some_iff.mp hrun
  obtain ⟨hreceived, hclosed⟩ := Prod.mk.inj hlast
  refine ⟨by decide, ⟨s, hs, hreceived, hclosed⟩, ?_⟩
  rintro ⟨s', hs', -, hopen, -⟩
  rw [hs] at hs'
  rw [← Option.some.inj hs', hclosed] at hopen
  exact absurd hopen (by decide)

end Handshakes

end NeoLoader.MuleSocket
