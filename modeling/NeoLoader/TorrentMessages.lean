import NeoLoader.BitArrays
import NeoLoader.BlockAdmission
import NeoLoader.ByteReader

/-!
# Piece lists and holepunch messages

A client tells the pieces it has as a bit field behind the handshake. A holepunch message carries an
address of one of two families, a port and for a failure an error code.
-/

namespace NeoLoader.TorrentMessages

open ShareMapBits BitArrays BlockAdmission ByteReader

section PieceList

def eBitField : BitVec 8 := 5#8

/-- The number of pieces. -/
def pieceCount (info : CTorrentInfo) : ℕ := divUp info.totalLength info.pieceLength

/-- `CTorrentClient::SendPieceList`, the packet if one is sent. -/
def sendPieceList (isComplete : Bool) (info : CTorrentInfo) (BitField : List Bool) : Option (List (BitVec 8)) :=
  if isComplete then
    let Size := divUp info.totalLength info.pieceLength
    some (eBitField :: List.replicate Size 0xFF#8)
  else if BitField = [] ∨ BitField.count true = 0 then none
  else some (eBitField :: bits2Bytes BitField false)

/-- `CTorrentClient::ProcessPieceList` behind the opcode, without metadata or with it; there is an
exception if there are not enough bytes. -/
def processPieceList (info : Option CTorrentInfo) (Packet : List (BitVec 8)) : Option (List Bool) :=
  let PieceCount := match info with
    | none => Packet.length * 8
    | some info => divUp info.totalLength info.pieceLength
  if divUp PieceCount 8 ≤ Packet.length then
    some (bytes2Bits (Packet.take (divUp PieceCount 8)) PieceCount false)
  else none

/-- A packet is the bit field of some pieces, and is read as them. -/
structure PieceListOk (info : CTorrentInfo) (pieces : List Bool) (bytes : List (BitVec 8)) : Prop where
  /-- There is a byte for eight pieces. -/
  length : bytes.length = divUp (pieceCount info) 8
  /-- The spare bits are zero. -/
  spare : ∀ i, pieceCount info ≤ i → bitOf bytes false i = false
  /-- A client that knows the torrent reads the pieces. -/
  known : processPieceList (some info) bytes = some pieces
  /-- A client that does not reads them and zeros. -/
  unknown : ∃ bits, processPieceList none bytes = some bits ∧ bits.take (pieceCount info) = pieces

theorem length_bits2Bytes (bits : List Bool) (bED2kStyle : Bool) :
    (bits2Bytes bits bED2kStyle).length = divUp bits.length 8 := by
  simp [bits2Bytes]

theorem divUp_mul_eight (n : ℕ) : divUp (n * 8) 8 = n := by
  unfold divUp
  omega

/-- Bits behind the last one are not set. -/
theorem bitOf_bits2Bytes_spare (bits : List Bool) (bED2kStyle : Bool) {i : ℕ} (hi : bits.length ≤ i) :
    bitOf (bits2Bytes bits bED2kStyle) bED2kStyle i = false := by
  have hmod := Nat.mod_lt i (by omega : 0 < 8)
  have hdm : i / 8 * 8 + i % 8 = i := by omega
  unfold bitOf
  by_cases hbyte : i / 8 < (bits2Bytes bits bED2kStyle).length
  · rw [List.getD_eq_getElem _ _ hbyte, and_shift_ne_zero _ (shift_lt _ hmod)]
    simp only [bits2Bytes, List.getElem_map, List.getElem_range]
    rw [getLsbD_packByte bED2kStyle bits _ hmod, hdm, List.getD_eq_default _ _ hi]
  · rw [List.getD_eq_default _ _ (not_lt.mp hbyte)]
    simp

variable (info : CTorrentInfo)

theorem processPieceList_known {bytes : List (BitVec 8)} (hlength : bytes.length = divUp (pieceCount info) 8) :
    processPieceList (some info) bytes = some (bytes2Bits bytes (pieceCount info) false) := by
  have htake : bytes.take (divUp (pieceCount info) 8) = bytes := by
    rw [← hlength, List.take_length]
  rw [pieceCount] at hlength htake
  simp [processPieceList, hlength, htake, pieceCount]

theorem processPieceList_unknown (bytes : List (BitVec 8)) :
    processPieceList none bytes = some (bytes2Bits bytes (bytes.length * 8) false) := by
  simp [processPieceList, divUp_mul_eight]

theorem take_bytes2Bits (bytes : List (BitVec 8)) {n m : ℕ} (h : n ≤ m) (bED2kStyle : Bool) :
    (bytes2Bits bytes m bED2kStyle).take n = bytes2Bits bytes n bED2kStyle := by
  rw [bytes2Bits, ← List.map_take, List.take_range, min_eq_left h, bytes2Bits]

/-- A bit array is sent as it should be. -/
theorem bits2Bytes_ok (pieces : List Bool)
    (hpieces : pieces.length = pieceCount info) : PieceListOk info pieces (bits2Bytes pieces false) where
  length := by rw [length_bits2Bytes, hpieces]
  spare i hi := bitOf_bits2Bytes_spare pieces false (hpieces ▸ hi)
  known := by
    rw [processPieceList_known info (by rw [length_bits2Bytes, hpieces]), ← hpieces, bytes2Bits_bits2Bytes]
  unknown := by
    have hfits : pieceCount info ≤ (bits2Bytes pieces false).length * 8 := by
      rw [length_bits2Bytes, hpieces, divUp]
      omega
    refine ⟨_, processPieceList_unknown _, ?_⟩
    rw [take_bytes2Bits _ hfits, ← hpieces, bytes2Bits_bits2Bytes]

/-- A byte for each piece is a bit field only without pieces. -/
theorem replicate_ok_iff : PieceListOk info (List.replicate (pieceCount info) true)
      (List.replicate (pieceCount info) 0xFF#8) ↔ pieceCount info = 0 := by
  constructor
  · intro h
    have hlength := h.length
    rw [List.length_replicate, divUp] at hlength
    by_contra hne
    -- One piece needs one byte, and then the second bit is a spare one.
    have hone : pieceCount info = 1 := by omega
    have hspare := h.spare 1 (by omega)
    rw [hone] at hspare
    exact absurd hspare (by decide)
  · intro hzero
    have hempty := bits2Bytes_ok info [] (by simp [hzero])
    have hbytes : bits2Bytes [] false = [] := by simp [bits2Bytes, divUp]
    rw [hbytes] at hempty
    rw [hzero]
    exact hempty

/-- The pieces of a file, all of them if it is complete, are sent as a bit field exactly if the file is not
complete and has a piece, or has no pieces. -/
theorem sendPieceList_ok_iff (isComplete : Bool) (info : CTorrentInfo) (BitField : List Bool)
    (hlength : BitField.length = pieceCount info) :
    (∃ bytes, sendPieceList isComplete info BitField = some (eBitField :: bytes) ∧
      PieceListOk info (if isComplete then List.replicate (pieceCount info) true else BitField) bytes) ↔
        (isComplete = true ∧ pieceCount info = 0) ∨ (isComplete = false ∧ true ∈ BitField) := by
  cases isComplete with
  | true =>
    have hsent : sendPieceList true info BitField = some (eBitField :: List.replicate (pieceCount info) 0xFF#8) := by
      simp [sendPieceList, pieceCount]
    rw [hsent]
    simpa using replicate_ok_iff info
  | false =>
    by_cases hpieces : true ∈ BitField
    · have hsent : sendPieceList false info BitField = some (eBitField :: bits2Bytes BitField false) := by
        have hne : BitField ≠ [] := List.ne_nil_of_mem hpieces
        have hcount : BitField.count true ≠ 0 := (List.count_pos_iff.mpr hpieces).ne'
        simp [sendPieceList, hne, hcount]
      rw [hsent]
      simpa [hpieces] using bits2Bytes_ok info BitField hlength
    · have hsent : sendPieceList false info BitField = none := by
        have hcount := List.count_eq_zero.mpr hpieces
        simp [sendPieceList, hcount]
      rw [hsent]
      simp [hpieces]

/-- Nine pieces. -/
def ninePieces : CTorrentInfo where
  pieceLength := 2
  isMerkle := false
  totalLength := 17
  pieceLength_pos := by simp

/-- The first and the last of them. -/
def twoPieces : List Bool := [true, false, false, false, false, false, false, false, true]

/-- They are sent as a bit field. -/
theorem sendPieceList_two : ∃ bytes, sendPieceList false ninePieces twoPieces =
    some (eBitField :: bytes) ∧ PieceListOk ninePieces twoPieces bytes := by
  have h := (sendPieceList_ok_iff false ninePieces twoPieces (by simp [twoPieces, pieceCount,
    ninePieces, divUp])).mpr (Or.inr ⟨rfl, by simp [twoPieces]⟩)
  simpa using h

/-- All nine pieces are sent as nine bytes, and not as two. -/
theorem sendPieceList_complete : sendPieceList true ninePieces (List.replicate 9 true) =
      some (eBitField :: List.replicate 9 0xFF#8) ∧
    ¬ PieceListOk ninePieces (List.replicate 9 true) (List.replicate 9 0xFF#8) := by
  refine ⟨by decide, fun h => ?_⟩
  have hlength := h.length
  exact absurd hlength (by decide)

end PieceList

section Holepunch

/-- `CAddress::EAF`. -/
inductive EAF where
  | none
  | ipv4
  | ipv6
  deriving DecidableEq

structure CAddress where
  m_eAF : EAF
  m_IP : List.Vector UInt8 16

def CAddress.len (a : CAddress) : ℕ := if a.m_eAF = EAF.ipv6 then 16 else 4

/-- `CAddress::operator ==`. -/
def CAddress.Same (a b : CAddress) : Prop :=
  a.m_eAF = b.m_eAF ∧ a.m_IP.toList.take a.len = b.m_IP.toList.take a.len

/-- A number with the highest byte first. -/
def bigEndian (n k : ℕ) : List UInt8 := (littleEndian n k).reverse

/-- The number of bytes with the highest one first. -/
def ofBigEndian (bytes : List UInt8) : ℕ := ofLittleEndian bytes.reverse

/-- `CAddress::ToIPv4`: zero for other addresses. -/
def CAddress.toIPv4 (a : CAddress) : ℕ :=
  if a.m_eAF = EAF.ipv4 then ofBigEndian (a.m_IP.toList.take a.len) else 0

/-- `CAddress::CAddress` of a number, with what is in the memory of the other bytes. -/
def CAddress.ofIPv4 (IP : ℕ) (memory : List.Vector UInt8 12) : CAddress where
  m_eAF := EAF.ipv4
  m_IP := ⟨bigEndian 4 IP ++ memory.toList, by simp [bigEndian]⟩

inductive EHolepunch where
  | eHpRendezvous
  | eHpConnect
  | eHpFailed
  deriving DecidableEq

/-- The number of a type. -/
def EHolepunch.number : EHolepunch → ℕ
  | .eHpRendezvous => 0
  | .eHpConnect => 1
  | .eHpFailed => 2

def eExtended : UInt8 := 20

/-- `CTorrentClient::SendHolepunch`. -/
def sendHolepunch (m_ut_holepunch_Extension : UInt8) (eType : EHolepunch) (Address : CAddress)
    (Port : UInt16) (Error : UInt32) : List UInt8 :=
  [eExtended, m_ut_holepunch_Extension] ++ bigEndian 1 eType.number ++
    (if Address.m_eAF ≠ EAF.ipv4 then bigEndian 1 0 ++ bigEndian 4 Address.toIPv4
    else if Address.m_eAF ≠ EAF.ipv6 then bigEndian 1 1 ++ Address.m_IP.toList
    else []) ++ bigEndian 2 Port.toNat ++
    (if eType = EHolepunch.eHpFailed then bigEndian 4 Error.toNat else [])

/-- What a holepunch message says. -/
structure Holepunch where
  /-- The type. -/
  eType : ℕ
  /-- The address. -/
  Address : CAddress
  /-- The port. -/
  Port : ℕ
  /-- The error code of a failure. -/
  Error : Option ℕ

/-- `CBuffer::ReadValue` with the highest byte first. -/
def readValue (n : ℕ) : Reader ℕ := do
  let bytes ← readBytes n
  return ofBigEndian bytes

/-- The port, and the error code of a failure. -/
def readPort (eType : ℕ) : Reader (ℕ × Option ℕ) := do
  let Port ← readValue 2
  if eType = 2 then
    let Error ← readValue 4
    return (Port, some Error)
  else return (Port, none)

/-- What `CTorrentClient::ProcessHolepunch` reads behind the extension, with what is in the memory of a new
address; nothing for other families. -/
def readHolepunch (memory : List.Vector UInt8 12) : Reader (Option Holepunch) := do
  let eType ← readValue 1
  let Prot ← readValue 1
  if Prot = 0 then
    let IP ← readValue 4
    let Port ← readPort eType
    return some ⟨eType, CAddress.ofIPv4 IP memory, Port.1, Port.2⟩
  else if Prot = 1 then
    let IP ← readBytes 16
    let Port ← readPort eType
    return if h : IP.length = 16 then some ⟨eType, ⟨EAF.ipv6, ⟨IP, h⟩⟩, Port.1, Port.2⟩ else none
  else return none

/-- `CTorrentClient::ProcessHolepunch` up to the switch: holepunching may be off. -/
def processHolepunch (m_ut_holepunch_Extension : UInt8) (uTP : Bool) (memory : List.Vector UInt8 12)
    (Packet : List UInt8) : Option Holepunch :=
  if m_ut_holepunch_Extension = 0 ∨ uTP = false then none
  else ((readHolepunch memory).run Packet).bind Prod.fst

/-- A message is understood as it was sent. -/
structure Understood (eType : EHolepunch) (Address : CAddress) (Port : UInt16) (Error : UInt32)
    (message : Holepunch) : Prop where
  /-- The type. -/
  type_eq : message.eType = eType.number
  /-- The address. -/
  address_same : message.Address.Same Address
  /-- The port. -/
  port_eq : message.Port = Port.toNat
  /-- The error code. -/
  error_eq : eType = EHolepunch.eHpFailed → message.Error = some Error.toNat

theorem reads_value {n k : ℕ} (h : k < 256 ^ n) : Reads (readValue n) (bigEndian n k) k := by
  have hbytes : Reads (readBytes n) (bigEndian n k) (bigEndian n k) := by
    have h := reads_bytes (bigEndian n k)
    rwa [bigEndian, List.length_reverse, length_littleEndian] at h
  have hread := reads_bind_pure (f := ofBigEndian) hbytes
  rwa [ofBigEndian, bigEndian, List.reverse_reverse, ofLittleEndian_littleEndian, Nat.mod_eq_of_lt h] at hread

theorem EHolepunch.number_lt (eType : EHolepunch) : eType.number < 256 ^ 1 := by
  cases eType <;> simp [number]

theorem EHolepunch.number_eq_two {eType : EHolepunch} : eType.number = 2 ↔ eType = EHolepunch.eHpFailed := by
  cases eType <;> simp [number]

/-- What a message has behind the address. -/
def portBytes (eType : EHolepunch) (Port : UInt16) (Error : UInt32) : List UInt8 :=
  bigEndian 2 Port.toNat ++ (if eType = EHolepunch.eHpFailed then bigEndian 4 Error.toNat else [])

/-- The error code of a failure. -/
def errorOf (eType : EHolepunch) (Error : UInt32) : Option ℕ :=
  if eType = EHolepunch.eHpFailed then some Error.toNat else none

theorem reads_port (eType : EHolepunch) (Port : UInt16) (Error : UInt32) :
    Reads (readPort eType.number) (portBytes eType Port Error) (Port.toNat, errorOf eType Error) := by
  refine reads_bind (reads_value Port.toNat_lt) ?_
  by_cases hfailed : eType = EHolepunch.eHpFailed
  · simpa [hfailed, EHolepunch.number, errorOf] using
      reads_bind_pure (f := fun Error => (Port.toNat, some Error)) (reads_value Error.toNat_lt)
  · simpa [hfailed, EHolepunch.number_eq_two, errorOf] using reads_pure (Port.toNat, none)

/-- The message of an address that is not of the old family has the number of one of that family. -/
theorem reads_number_of_other (memory : List.Vector UInt8 12) (eType : EHolepunch) {Address : CAddress}
    (h : Address.m_eAF ≠ EAF.ipv4) (Port : UInt16) (Error : UInt32) :
    Reads (readHolepunch memory) (bigEndian 1 eType.number ++ (bigEndian 1 0 ++ (bigEndian 4 Address.toIPv4 ++
        portBytes eType Port Error)))
      (some ⟨eType.number, CAddress.ofIPv4 0 memory, Port.toNat, errorOf eType Error⟩) := by
  have hnumber : Address.toIPv4 = 0 := by simp [CAddress.toIPv4, h]
  rw [hnumber]
  refine reads_bind (reads_value eType.number_lt) (reads_bind (reads_value (by norm_num)) ?_)
  rw [if_pos rfl]
  refine reads_bind (reads_value (by norm_num)) ?_
  exact reads_bind_pure (reads_port eType Port Error)

/-- The message of an address of the old family has sixteen bytes. -/
theorem reads_bytes_of_old (memory : List.Vector UInt8 12) (eType : EHolepunch) (IP : List.Vector UInt8 16)
    (Port : UInt16) (Error : UInt32) : Reads (readHolepunch memory)
      (bigEndian 1 eType.number ++ (bigEndian 1 1 ++ (IP.toList ++ portBytes eType Port Error)))
      (some ⟨eType.number, ⟨EAF.ipv6, IP⟩, Port.toNat, errorOf eType Error⟩) := by
  have hlength : IP.toList.length = 16 := IP.toList_length
  have hbytes : Reads (readBytes 16) IP.toList IP.toList := by
    have h := reads_bytes IP.toList
    rwa [hlength] at h
  refine reads_bind (reads_value eType.number_lt) (reads_bind (reads_value (by norm_num)) ?_)
  rw [if_neg Nat.one_ne_zero, if_pos rfl]
  refine reads_bind hbytes ?_
  have hport := reads_bind_pure (f := fun Port : ℕ × Option ℕ =>
    some (Holepunch.mk eType.number ⟨EAF.ipv6, IP⟩ Port.1 Port.2)) (reads_port eType Port Error)
  simpa [hlength] using hport

/-- What the other client makes of a message. -/
theorem processHolepunch_sent {extension : UInt8} (hextension : extension ≠ 0)
    (memory : List.Vector UInt8 12) (eType : EHolepunch) (Address : CAddress) (Port : UInt16) (Error : UInt32) :
    processHolepunch extension true memory ((sendHolepunch extension eType Address Port Error).drop 2) =
        some ⟨eType.number, if Address.m_eAF = EAF.ipv4 then ⟨EAF.ipv6, Address.m_IP⟩
          else CAddress.ofIPv4 0 memory, Port.toNat, errorOf eType Error⟩ := by
  by_cases h : Address.m_eAF = EAF.ipv4
  · have hsent : (sendHolepunch extension eType Address Port Error).drop 2 =
        bigEndian 1 eType.number ++ (bigEndian 1 1 ++ (Address.m_IP.toList ++ portBytes eType Port Error)) := by
      simp [sendHolepunch, h, portBytes]
    have hread := reads_bytes_of_old memory eType Address.m_IP Port Error []
    rw [List.append_nil] at hread
    simp [processHolepunch, hextension, hsent, StateT.run, hread, h]
  · have hsent : (sendHolepunch extension eType Address Port Error).drop 2 =
        bigEndian 1 eType.number ++ (bigEndian 1 0 ++ (bigEndian 4 Address.toIPv4 ++ portBytes eType Port Error)) := by
      simp [sendHolepunch, h, portBytes]
    have hread := reads_number_of_other memory eType h Port Error []
    rw [List.append_nil] at hread
    simp [processHolepunch, hextension, hsent, StateT.run, hread, h]

/-- No message is understood: the address gets another family. -/
theorem processHolepunch_never {extension : UInt8} (hextension : extension ≠ 0)
    (memory : List.Vector UInt8 12) (eType : EHolepunch) (Address : CAddress) (Port : UInt16)
    (Error : UInt32) :
    ¬ ∃ message, processHolepunch extension true memory
      ((sendHolepunch extension eType Address Port Error).drop 2) = some message ∧
        Understood eType Address Port Error message := by
  rintro ⟨message, hmessage, hunderstood⟩
  rw [processHolepunch_sent hextension] at hmessage
  have hsame := hunderstood.address_same.1
  rw [← Option.some.inj hmessage] at hsame
  by_cases h : Address.m_eAF = EAF.ipv4
  · simp [h] at hsame
  · simp only [h, if_false, CAddress.ofIPv4] at hsame
    exact h hsame.symm

/-- An address of the old family. -/
def oldAddress : CAddress := CAddress.ofIPv4 0x0A000001 (List.Vector.replicate 12 0)

/-- The failure of a connection to it is not understood. -/
theorem processHolepunch_never_failed : ¬ ∃ message, processHolepunch 3 true (List.Vector.replicate 12 0)
      ((sendHolepunch 3 EHolepunch.eHpFailed oldAddress 6881 2).drop 2) = some message ∧
        Understood EHolepunch.eHpFailed oldAddress 6881 2 message :=
  processHolepunch_never (by simp) _ _ _ _ _

/-- The other client is to connect to an address of the new family. -/
theorem processHolepunch_connect : (∃ message, processHolepunch 3 true (List.Vector.replicate 12 0)
      ((sendHolepunch 3 EHolepunch.eHpConnect oldAddress 6881 0).drop 2) = some message ∧
        message.Address.m_eAF = EAF.ipv6) ∧
    ¬ ∃ message, processHolepunch 3 true (List.Vector.replicate 12 0)
      ((sendHolepunch 3 EHolepunch.eHpConnect oldAddress 6881 0).drop 2) = some message ∧
        Understood EHolepunch.eHpConnect oldAddress 6881 0 message := by
  have hread : (processHolepunch 3 true (List.Vector.replicate 12 0)
      ((sendHolepunch 3 EHolepunch.eHpConnect oldAddress 6881 0).drop 2)).map
        (fun message => message.Address.m_eAF) = some EAF.ipv6 := by
    decide
  obtain ⟨message, hmessage, hfamily⟩ := Option.map_eq_some_iff.mp hread
  refine ⟨⟨message, hmessage, hfamily⟩, ?_⟩
  rintro ⟨message', hmessage', hunderstood⟩
  rw [hmessage] at hmessage'
  have hsame := hunderstood.address_same.1
  rw [← Option.some.inj hmessage', hfamily] at hsame
  simp [oldAddress, CAddress.ofIPv4] at hsame

end Holepunch

end NeoLoader.TorrentMessages
