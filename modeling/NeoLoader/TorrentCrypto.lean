import NeoLoader.ByteReader
import NeoLoader.KeyStream

/-!
# The encryption of connections between peers

An end of a connection exchanges keys with the other, finds out which torrent it is about, and agrees with it on a
method: the end that connects offers methods, the other one selects one of them. An end that is connected to may get
the handshake of the protocol in plain instead. Bytes that were received remember whether they were decrypted.
-/

namespace NeoLoader.TorrentCrypto

open ByteReader KeyStream

section Settings

/-- The setting `BitTorrent/Encryption`. -/
inductive Encryption where
  | Disable
  | Support
  | Request
  | Require
  deriving DecidableEq

def Encryption.supportsCryptLayer (e : Encryption) : Bool := e ≠ Disable

def Encryption.requestsCryptLayer (e : Encryption) : Bool := e = Request ∨ e = Require

def Encryption.requiresCryptLayer (e : Encryption) : Bool := e = Require

/-- `m_CryptoMethod`. -/
inductive Method where
  | eUndefined
  | eNone
  | eRC4
  deriving DecidableEq

/-- `uProvide` of an end that connects. -/
def Encryption.provide (e : Encryption) : ℕ :=
  if e.requiresCryptLayer then 0x02 else if e.supportsCryptLayer then 0x03 else 0x01

/-- The method that an end selects, and `uSelect`. -/
def Encryption.select (e : Encryption) (uProvide : ℕ) : Option (Method × ℕ) :=
  if e.requestsCryptLayer && uProvide &&& 0x02 ≠ 0 then some (Method.eRC4, 0x02)
  else if !e.requiresCryptLayer && uProvide &&& 0x01 ≠ 0 then some (Method.eNone, 0x01)
  else none

end Settings

section Socket

inductive ECrypto where
  | eInit
  | eExchangeKey
  | eFindHash
  | eReadHash
  | eReadProvide
  | eEndProvide
  | eReadIA
  | eFindSelect
  | eReadSelect
  | eEndSelect
  | eDone
  deriving DecidableEq

open ECrypto

/-- What a socket does. -/
inductive Output where
  /-- A part of the exchange of keys and methods is sent. -/
  | sent (Data : List UInt8)
  /-- A handshake or a packet is sent, encrypted or not. -/
  | payload (Encrypted : Bool) (Data : List UInt8)
  /-- `ReceivedHandshake` is emitted. -/
  | receivedHandshake (Handshake : List (UInt8 × Bool))
  /-- `ReceivedPacket` is emitted. -/
  | receivedPacket (Packet : List (UInt8 × Bool))
  /-- `Connected` is emitted. -/
  | connected
  /-- `DisconnectFromHost`. -/
  | disconnected (Error : ℕ)
  /-- The methods that the other end offers were read. -/
  | readProvide (uProvide : ℕ)
  /-- The method that the other end selects was read. -/
  | readSelect (uSelect : ℕ)
  deriving DecidableEq

def SOCK_ERR_CRYPTO : ℕ := 4

def SOCK_ERR_OVERSIZED : ℕ := 5

/-- `CTorrentSocket`. Each byte of `m_InBuffer` comes with whether it was decrypted, and `m_Outgoing` says whether the
socket is being connected. -/
structure CTorrentSocket where
  m_CryptoState : ECrypto
  m_CryptoMethod : Method
  /-- Whether there is `m_KeyExchange`. -/
  m_KeyExchange : Bool
  m_TempKey : List UInt8
  /-- `m_CryptoKey`, for what is sent and for what is received. -/
  m_CryptoKey : Option (Cipher × Cipher)
  m_InfoHash : List UInt8
  m_SyncMark : List UInt8
  m_Atomic : List UInt8
  m_InBuffer : List (UInt8 × Bool)
  /-- The position in `m_InBuffer`. -/
  m_uPosition : ℕ
  m_NextPacketLength : ℕ
  /-- The socket is being connected. -/
  m_Outgoing : Bool
  /-- What the socket did. -/
  m_Outputs : List Output

/-- The constructor. -/
def CTorrentSocket.new : CTorrentSocket :=
  ⟨eInit, Method.eUndefined, false, [], none, [], [], [], [], 0, 0, false, []⟩

/-- The algorithms, the keys of one connection and its padding. -/
structure Crypto where
  /-- The public key of this end. -/
  publicKey : List UInt8
  finaliseKeyExchange : List UInt8 → Option (List UInt8)
  /-- The hash `eSHA1`. -/
  sha1 : List UInt8 → List UInt8
  /-- The key stream of `eRC4`. -/
  rc4 : List UInt8 → Cipher
  /-- `GetInfoHash`, which is empty for an unknown torrent. -/
  getInfoHash : List UInt8 → List UInt8
  /-- Random bytes, after what the socket did so far. -/
  padding : List Output → List UInt8

variable (crypto : Crypto) (e : Encryption)

/-- What the socket does next. -/
def CTorrentSocket.output (s : CTorrentSocket) (o : Output) : CTorrentSocket :=
  { s with m_Outputs := s.m_Outputs ++ [o] }

/-- A number as bytes, the highest first. -/
def bigEndian (n k : ℕ) : List UInt8 := (littleEndian n k).reverse

/-- The number at a place of the buffer, the highest byte first. -/
def CTorrentSocket.readValue (s : CTorrentSocket) (place n : ℕ) : ℕ :=
  ofLittleEndian (((s.m_InBuffer.drop place).take n).map Prod.fst).reverse

def CTorrentSocket.shiftData (s : CTorrentSocket) (uOffset : ℕ) : CTorrentSocket :=
  { s with
    m_InBuffer := s.m_InBuffer.drop uOffset
    m_uPosition := s.m_uPosition - uOffset }

/-- `Decrypt`, of some bytes of the buffer. -/
def CTorrentSocket.decrypt (s : CTorrentSocket) (place n : ℕ) : CTorrentSocket :=
  match s.m_CryptoKey with
  | none => s
  | some (out, into) => { s with
      m_InBuffer := s.m_InBuffer.take place ++
        (into.process (((s.m_InBuffer.drop place).take n).map Prod.fst)).map (fun b => (b, true)) ++
          s.m_InBuffer.drop (place + n)
      m_CryptoKey := some (out, into.discard n) }

/-- A part of the exchange is encrypted and sent. -/
def CTorrentSocket.sendEncrypted (s : CTorrentSocket) (Data : List UInt8) : CTorrentSocket :=
  match s.m_CryptoKey with
  | none => s
  | some (out, into) =>
    { s with m_CryptoKey := some (out.discard Data.length, into) }.output (Output.sent (out.process Data))

def CTorrentSocket.cryptoFailed (s : CTorrentSocket) : CTorrentSocket :=
  { s with m_CryptoState := eDone }.output (Output.disconnected SOCK_ERR_CRYPTO)

def CTorrentSocket.sendPaddedKey (s : CTorrentSocket) : CTorrentSocket :=
  s.output (Output.sent (crypto.publicKey ++ crypto.padding s.m_Outputs))

def CTorrentSocket.setupRC4 (s : CTorrentSocket) (Sender : Bool) : CTorrentSocket :=
  let keyA := crypto.rc4 (crypto.sha1 ("keyA".toUTF8.data.toList ++ s.m_TempKey ++ s.m_InfoHash))
  let keyB := crypto.rc4 (crypto.sha1 ("keyB".toUTF8.data.toList ++ s.m_TempKey ++ s.m_InfoHash))
  { s with m_CryptoKey := some (if Sender then (keyA, keyB) else (keyB, keyA)) }

def CTorrentSocket.finishCrypto (s : CTorrentSocket) (Offset : ℕ) : CTorrentSocket :=
  if s.m_CryptoMethod = Method.eNone then { s with m_CryptoKey := none }
  else s.decrypt Offset (s.m_InBuffer.length - Offset)

/-- The first place at which a mark stands. -/
def indexOf (data mark : List UInt8) : Option ℕ := data.tails.findIdx? mark.isPrefixOf

def CTorrentSocket.findSyncMark (s : CTorrentSocket) : CTorrentSocket × Bool :=
  match indexOf (s.m_InBuffer.map Prod.fst) s.m_SyncMark with
  | none =>
    if s.m_InBuffer.length > 96 + 512 + s.m_SyncMark.length then (s.cryptoFailed, false) else (s, false)
  | some Index => (s.shiftData (Index + s.m_SyncMark.length), true)

/-- The beginning of a handshake in plain. -/
def PROTOCOL_ID : List UInt8 := 19 :: "BitTorrent protocol".toUTF8.data.toList

def BT_DH_Size : ℕ := 96

/-- The hash `req1`. -/
def CTorrentSocket.req1 (s : CTorrentSocket) : List UInt8 :=
  crypto.sha1 ("req1".toUTF8.data.toList ++ s.m_TempKey)

/-- The exclusive or of the hash `req3` with another hash. -/
def CTorrentSocket.req3 (s : CTorrentSocket) (Hash : List UInt8) : List UInt8 :=
  List.zipWith (· ^^^ ·) Hash (crypto.sha1 ("req3".toUTF8.data.toList ++ s.m_TempKey))

/-- What the end that connects sends once it has the key of the other: which torrent it is about, what methods it
offers, and its handshake. -/
def CTorrentSocket.sendProvide (s : CTorrentSocket) : CTorrentSocket :=
  let s := s.output (Output.sent (s.req1 crypto))
  let s := s.output (Output.sent (s.req3 crypto (crypto.sha1 ("req2".toUTF8.data.toList ++ s.m_InfoHash))))
  let s := s.setupRC4 crypto true
  let Padding := crypto.padding s.m_Outputs
  let s := s.sendEncrypted (bigEndian 8 0 ++ bigEndian 4 e.provide ++ bigEndian 2 Padding.length ++ Padding)
  s.sendEncrypted (bigEndian 2 s.m_Atomic.length ++ s.m_Atomic)

/-- What the other end answers: the method that it selects. -/
def CTorrentSocket.sendSelect (s : CTorrentSocket) (uSelect : ℕ) : CTorrentSocket :=
  let Padding := crypto.padding s.m_Outputs
  s.sendEncrypted (bigEndian 8 0 ++ bigEndian 4 uSelect ++ bigEndian 2 Padding.length ++ Padding)

/-- The case `eInit` of `ProcessCrypto`, and whether the next one follows at once. -/
def caseInit (s : CTorrentSocket) : CTorrentSocket × Bool :=
  if s.m_InBuffer.length < 1 + 19 then (s, false)
  else if PROTOCOL_ID.isPrefixOf (s.m_InBuffer.map Prod.fst) then ({ s with m_CryptoState := eDone }, false)
  else ({ s with m_CryptoState := eExchangeKey }, true)

/-- An end that is connected to answers with its key. -/
def CTorrentSocket.answerKey (s : CTorrentSocket) : CTorrentSocket :=
  if s.m_KeyExchange then s else { s.sendPaddedKey crypto with m_CryptoState := eFindHash }

/-- The case `eExchangeKey`. -/
def caseExchangeKey (s : CTorrentSocket) : CTorrentSocket × Bool :=
  if s.m_InBuffer.length < BT_DH_Size then (s, false)
  else
    match crypto.finaliseKeyExchange ((s.m_InBuffer.take BT_DH_Size).map Prod.fst) with
    | none => ({ s.answerKey crypto with m_KeyExchange := false }.cryptoFailed, false)
    | some TempKey =>
      if (s.answerKey crypto).m_CryptoState = eFindHash then
        ({ s.answerKey crypto with m_KeyExchange := false, m_TempKey := TempKey }, false)
      else
        ({ { s.answerKey crypto with
            m_KeyExchange := false
            m_TempKey := TempKey }.sendProvide crypto e with m_CryptoState := eFindSelect }, false)

/-- The next case follows if the mark was found. -/
def findThen (next : ECrypto) (s : CTorrentSocket) : CTorrentSocket × Bool :=
  if s.findSyncMark.2 then ({ s.findSyncMark.1 with m_CryptoState := next }, true) else (s.findSyncMark.1, false)

/-- The case `eFindHash`. -/
def caseFindHash (s : CTorrentSocket) : CTorrentSocket × Bool :=
  findThen eReadHash (if s.m_SyncMark = [] then { s with m_SyncMark := s.req1 crypto } else s)

/-- The case `eReadHash`. -/
def caseReadHash (s : CTorrentSocket) : CTorrentSocket × Bool :=
  if s.m_InBuffer.length < 20 then (s, false)
  else if crypto.getInfoHash (s.req3 crypto ((s.m_InBuffer.take 20).map Prod.fst)) = [] then
    ({ s.shiftData 20 with m_InfoHash := [] }.cryptoFailed, false)
  else
    ({ { s.shiftData 20 with
        m_InfoHash := crypto.getInfoHash (s.req3 crypto ((s.m_InBuffer.take 20).map Prod.fst)) }.setupRC4 crypto false with
      m_CryptoState := eReadProvide }, true)

/-- `uProvide` was read. -/
def CTorrentSocket.takeProvide (s : CTorrentSocket) : CTorrentSocket :=
  ((s.decrypt 0 (8 + 4 + 2)).shiftData (8 + 4)).output (Output.readProvide ((s.decrypt 0 (8 + 4 + 2)).readValue 8 4))

/-- The case `eReadProvide`. -/
def caseReadProvide (s : CTorrentSocket) : CTorrentSocket × Bool :=
  if s.m_InBuffer.length < 8 + 4 + 2 then (s, false)
  else if (s.decrypt 0 (8 + 4 + 2)).readValue 0 8 ≠ 0 then ((s.decrypt 0 (8 + 4 + 2)).cryptoFailed, false)
  else
    match e.select ((s.decrypt 0 (8 + 4 + 2)).readValue 8 4) with
    | none => (s.takeProvide.cryptoFailed, false)
    | some (m_CryptoMethod, uSelect) =>
      ({ { s.takeProvide with m_CryptoMethod := m_CryptoMethod }.sendSelect crypto uSelect with
        m_CryptoState := eEndProvide }, true)

/-- The case `eEndProvide`, in which two bytes behind the padding are decrypted together with it. -/
def caseEndProvide (s : CTorrentSocket) : CTorrentSocket × Bool :=
  if s.m_InBuffer.length < 2 + s.readValue 0 2 + 2 then (s, false)
  else
    ({ (s.decrypt 2 (s.readValue 0 2 + 2)).shiftData (2 + s.readValue 0 2) with m_CryptoState := eReadIA }, true)

/-- The case `eReadIA`. -/
def caseReadIA (s : CTorrentSocket) : CTorrentSocket × Bool :=
  if s.m_InBuffer.length < 2 + s.readValue 0 2 then (s, false)
  else
    ({ ((s.shiftData 2).decrypt 0 (s.readValue 0 2)).finishCrypto (s.readValue 0 2) with m_CryptoState := eDone }, false)

/-- The mark that stands before the method that the other end selects. -/
def CTorrentSocket.selectMark (s : CTorrentSocket) : CTorrentSocket :=
  match s.m_CryptoKey with
  | none => s
  | some (out, into) => { s with
      m_SyncMark := into.process (List.replicate 8 0)
      m_CryptoKey := some (out, into.discard 8) }

/-- The case `eFindSelect`. -/
def caseFindSelect (s : CTorrentSocket) : CTorrentSocket × Bool :=
  findThen eReadSelect (if s.m_SyncMark = [] then s.selectMark else s)

/-- `uSelect`, of which it is not known yet whether it is a method. -/
def CTorrentSocket.uSelect (s : CTorrentSocket) : ℕ := (s.decrypt 0 (4 + 2)).readValue 0 4

/-- `uSelect` was read. -/
def CTorrentSocket.takeSelect (s : CTorrentSocket) : CTorrentSocket :=
  (s.decrypt 0 (4 + 2)).output (Output.readSelect s.uSelect)

/-- The case `eReadSelect`. -/
def caseReadSelect (s : CTorrentSocket) : CTorrentSocket × Bool :=
  if s.m_InBuffer.length < 4 + 2 then (s, false)
  else if s.uSelect = 0x02 then
    ({ s.takeSelect.shiftData 4 with m_CryptoMethod := Method.eRC4, m_CryptoState := eEndSelect }, true)
  else if s.uSelect = 0x01 then
    ({ s.takeSelect.shiftData 4 with m_CryptoMethod := Method.eNone, m_CryptoState := eEndSelect }, true)
  else (s.takeSelect.cryptoFailed, false)

/-- The case `eEndSelect`. -/
def caseEndSelect (s : CTorrentSocket) : CTorrentSocket × Bool :=
  if s.m_InBuffer.length < 2 + s.readValue 0 2 then (s, false)
  else
    ({ ((s.decrypt 2 (s.readValue 0 2)).shiftData (2 + s.readValue 0 2)).finishCrypto 0 with
      m_CryptoState := eDone }.output Output.connected, false)

/-- The case of `ProcessCrypto` for the state of the exchange. -/
def processCase (s : CTorrentSocket) : CTorrentSocket × Bool :=
  match s.m_CryptoState with
  | eInit => caseInit s
  | eExchangeKey => caseExchangeKey crypto e s
  | eFindHash => caseFindHash crypto s
  | eReadHash => caseReadHash crypto s
  | eReadProvide => caseReadProvide crypto e s
  | eEndProvide => caseEndProvide s
  | eReadIA => caseReadIA s
  | eFindSelect => caseFindSelect s
  | eReadSelect => caseReadSelect s
  | eEndSelect => caseEndSelect s
  | eDone => (s, false)

/-- The cases of `ProcessCrypto` that follow each other at once, which are five at most. -/
def processCases : ℕ → CTorrentSocket → CTorrentSocket
  | 0, s => s
  | n + 1, s =>
    if (processCase crypto e s).2 then processCases n (processCase crypto e s).1
    else (processCase crypto e s).1

def processCrypto (s : CTorrentSocket) : CTorrentSocket := processCases crypto e 5 s

def HAND_SHAKE_SIZE : ℕ := 1 + 19 + 8 + 20 + 20

/-- The handshake is taken from the buffer, if it was not before, and whether it was. -/
def takeHandshake (s : CTorrentSocket) : CTorrentSocket × Bool :=
  if s.m_NextPacketLength = 0 then
    if s.m_InBuffer.length < HAND_SHAKE_SIZE then (s, false)
    else
      ({ s.output (Output.receivedHandshake ((s.m_InBuffer.drop s.m_uPosition).take HAND_SHAKE_SIZE)) with
        m_NextPacketLength := 0xffffffff
        m_InBuffer := s.m_InBuffer.drop HAND_SHAKE_SIZE }, true)
  else (s, true)

/-- The length of a packet is read. -/
def CTorrentSocket.readLength (s : CTorrentSocket) : CTorrentSocket :=
  { s with
    m_NextPacketLength := s.readValue s.m_uPosition 4
    m_uPosition := s.m_uPosition + 4 }

/-- The length of the next packet is read, if it is not known, and whether it is known then. -/
def takeLength (s : CTorrentSocket) : CTorrentSocket × Bool :=
  if s.m_NextPacketLength = 0xffffffff then
    if s.m_InBuffer.length < s.m_uPosition + 4 then (s, false)
    else if s.readLength.m_NextPacketLength > 256 * 1024 then
      (s.readLength.output (Output.disconnected SOCK_ERR_OVERSIZED), false)
    else (s.readLength, true)
  else (s, true)

/-- A packet of known length is taken. -/
def CTorrentSocket.readPacket (s : CTorrentSocket) : CTorrentSocket :=
  { ({ s.output (Output.receivedPacket ((s.m_InBuffer.drop s.m_uPosition).take s.m_NextPacketLength)) with
      m_uPosition := s.m_uPosition + s.m_NextPacketLength }.shiftData (4 + s.m_NextPacketLength)) with
    m_NextPacketLength := 0xffffffff }

/-- `GetSizeLeft` of the buffer. -/
def CTorrentSocket.sizeLeft (s : CTorrentSocket) : ℕ := s.m_InBuffer.length - s.m_uPosition

/-- A packet is taken from the buffer, and whether there is more behind it. -/
def takePacket (s : CTorrentSocket) : CTorrentSocket × Bool :=
  if (takeLength s).2 ∧ (takeLength s).1.m_NextPacketLength ≤ (takeLength s).1.sizeLeft then
    ((takeLength s).1.readPacket, 0 < (takeLength s).1.readPacket.sizeLeft)
  else ((takeLength s).1, false)

theorem takeLength_inBuffer (s : CTorrentSocket) : (takeLength s).1.m_InBuffer = s.m_InBuffer := by
  rw [takeLength]
  split_ifs <;> rfl

theorem length_takePacket {s : CTorrentSocket} (h : (takePacket s).2 = true) :
    (takePacket s).1.m_InBuffer.length < s.m_InBuffer.length := by
  rw [takePacket] at h ⊢
  split_ifs at h ⊢ with htake
  have hbuffer : (takeLength s).1.readPacket.m_InBuffer =
      s.m_InBuffer.drop (4 + (takeLength s).1.m_NextPacketLength) := by
    rw [← takeLength_inBuffer s]
    rfl
  simp only [CTorrentSocket.sizeLeft, decide_eq_true_eq, hbuffer, List.length_drop] at h ⊢
  omega

/-- The loop that takes packets from the buffer. -/
def takePackets (s : CTorrentSocket) : CTorrentSocket :=
  if _h : (takePacket s).2 then takePackets (takePacket s).1 else (takePacket s).1
termination_by s.m_InBuffer.length
decreasing_by exact length_takePacket _h

/-- What `ProcessStream` does once the exchange is over. -/
def takeStream (s : CTorrentSocket) : CTorrentSocket :=
  if (takeHandshake s).2 then takePackets (takeHandshake s).1 else (takeHandshake s).1

/-- The part of `ProcessStream` before that. -/
def processExchange (s : CTorrentSocket) : CTorrentSocket :=
  if s.m_CryptoState ≠ eDone then processCrypto crypto e s else s

def processStream (s : CTorrentSocket) : CTorrentSocket :=
  let s := processExchange crypto e s
  if s.m_CryptoState ≠ eDone then s else takeStream s

def CTorrentSocket.streamIn (s : CTorrentSocket) (Data : List UInt8) : CTorrentSocket :=
  match s.m_CryptoKey, s.m_CryptoState with
  | some (out, into), eDone => { s with
      m_InBuffer := s.m_InBuffer ++ (into.process Data).map (fun b => (b, true))
      m_CryptoKey := some (out, into.discard Data.length) }
  | _, _ => { s with m_InBuffer := s.m_InBuffer ++ Data.map (fun b => (b, false)) }

def CTorrentSocket.streamOut (s : CTorrentSocket) (Data : List UInt8) : CTorrentSocket :=
  match s.m_CryptoKey, s.m_CryptoState with
  | some (out, into), eDone =>
    { s with m_CryptoKey := some (out.discard Data.length, into) }.output (Output.payload true (out.process Data))
  | _, _ => s.output (Output.payload false Data)

def CTorrentSocket.sendHandshake (s : CTorrentSocket) (Handshake : List UInt8) : CTorrentSocket :=
  if s.m_CryptoState = eInit then { s with m_Atomic := Handshake } else s.streamOut Handshake

/-- `SendPacket`, and a packet of the queue. -/
def CTorrentSocket.sendPacket (s : CTorrentSocket) (Packet : List UInt8) : CTorrentSocket :=
  (s.streamOut (bigEndian 4 Packet.length)).streamOut Packet

def CTorrentSocket.initCrypto (s : CTorrentSocket) (InfoHash : List UInt8) : CTorrentSocket :=
  if InfoHash = [] then { s with m_InfoHash := InfoHash }
  else { { s with m_InfoHash := InfoHash, m_KeyExchange := true }.sendPaddedKey crypto with
    m_CryptoState := eExchangeKey }

/-- `OnConnected`, of a socket that is being connected. -/
def CTorrentSocket.onConnected (s : CTorrentSocket) : CTorrentSocket :=
  if s.m_Outgoing ∧ s.m_CryptoState = eInit then { s with m_CryptoState := eDone }.output Output.connected else s

/-- `CTorrentClient::Connect`, to a peer that supports encryption or not: the socket that is being connected. -/
def connect (SupportsEncryption : Bool) (InfoHash Handshake : List UInt8) : Option CTorrentSocket :=
  if e.supportsCryptLayer && SupportsEncryption then
    some ({ CTorrentSocket.new with m_Outgoing := true }.sendHandshake Handshake |>.initCrypto crypto InfoHash)
  else if e.requiresCryptLayer then none
  else some { CTorrentSocket.new with m_Outgoing := true }

/-- What happens to a socket. -/
inductive Event where
  /-- The connection is there. -/
  | connected
  /-- Bytes are received. -/
  | received (Data : List UInt8)
  /-- The client sends its handshake. -/
  | sendHandshake (Handshake : List UInt8)
  /-- The client sends a packet. -/
  | sendPacket (Packet : List UInt8)

/-- What a socket does at an event. -/
def CTorrentSocket.step (s : CTorrentSocket) : Event → CTorrentSocket
  | Event.connected => s.onConnected
  | Event.received Data => processStream crypto e (s.streamIn Data)
  | Event.sendHandshake Handshake => s.sendHandshake Handshake
  | Event.sendPacket Packet => s.sendPacket Packet

end Socket

end NeoLoader.TorrentCrypto
