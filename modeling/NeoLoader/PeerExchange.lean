import NeoLoader.Bencode
import NeoLoader.RelationSet
import NeoLoader.TorrentMessages

/-!
# Exchanging peers

Clients of a torrent tell each other which peers they have got since the last message and which are gone. Each
side keeps one list of the peers that the other one knows. A message is a bencoded map with one
byte array for the addresses of each family, and one for their flags.
-/

namespace NeoLoader.PeerExchange

open ByteReader TorrentMessages Bencode RelationSet

section Peers

/-- `STorrentPeer` without the id. -/
structure STorrentPeer where
  /-- `IPv4`, zero if there is none. -/
  IPv4 : UInt32
  /-- `IPv6`, zeros if there is none. -/
  IPv6 : List.Vector UInt8 16
  Prot : EAF
  /-- `Port`, zero if it is not known. -/
  Port : UInt16
  /-- `ConOpts.Bits`. -/
  ConOpts : UInt8
  deriving DecidableEq

namespace STorrentPeer

/-- The constructor of `STorrentPeer`: encryption and UTP are supported. -/
def init : STorrentPeer := ⟨0, List.Vector.replicate 16 0, EAF.none, 0, 5⟩

/-- `SAddressCombo::SetIP` of an address of the old family. -/
def setIPv4 (p : STorrentPeer) (IP : UInt32) : STorrentPeer := { p with Prot := EAF.ipv4, IPv4 := IP }

/-- `SAddressCombo::SetIP` of an address of the new family. -/
def setIPv6 (p : STorrentPeer) (IP : List.Vector UInt8 16) : STorrentPeer :=
  { p with Prot := EAF.ipv6, IPv6 := IP }

/-- `SAddressCombo::HasV4`. -/
def HasV4 (p : STorrentPeer) : Prop := p.IPv4 ≠ 0

/-- It is decided by the address. -/
instance (p : STorrentPeer) : Decidable p.HasV4 := inferInstanceAs (Decidable (p.IPv4 ≠ 0))

/-- `SAddressCombo::HasV6`. -/
def HasV6 (p : STorrentPeer) : Prop := p.IPv6 ≠ List.Vector.replicate 16 0

/-- It is decided by the address. -/
instance (p : STorrentPeer) : Decidable p.HasV6 :=
  inferInstanceAs (Decidable (p.IPv6 ≠ List.Vector.replicate 16 0))

/-- A peer of one of the two families. -/
abbrev HasAddress (p : STorrentPeer) : Prop := p.HasV4 ∨ p.HasV6

/-- `SAddressCombo::CompareTo`. -/
abbrev CompareTo (p q : STorrentPeer) : Prop :=
  (p.HasV4 ∧ q.HasV4 ∧ p.IPv4 = q.IPv4) ∨ (p.HasV6 ∧ q.HasV6 ∧ p.IPv6 = q.IPv6)

/-- `STorrentPeer::operator ==`. -/
abbrev Equal (p q : STorrentPeer) : Prop :=
  ¬(p.Port ≠ 0 ∧ q.Port ≠ 0 ∧ p.Port ≠ q.Port) ∧ p.CompareTo q

/-- A word of an address of the new family. -/
def word (p : STorrentPeer) (i : ℕ) : UInt32 :=
  UInt32.ofNat (ofLittleEndian ((p.IPv6.toList.drop (4 * i)).take 4))

def qHash (p : STorrentPeer) : UInt32 :=
  if p.Prot = EAF.ipv6 then
    UInt32.ofNat p.Port.toNat ||| p.word 3 ||| p.word 2 ||| p.word 1 ||| p.word 0
  else UInt32.ofNat p.Port.toNat ||| p.IPv4

/-- Two peers are one to a `QSet`. -/
abbrev Same (p q : STorrentPeer) : Prop := p.qHash = q.qHash ∧ p.Equal q

end STorrentPeer

/-- `CTransfer`, as far as a list of peers is made of it. -/
structure CTransfer where
  isChecked : Bool
  /-- `CTorrentPeer::m_Peer`, if the transfer is one. -/
  m_Peer : Option STorrentPeer

end Peers

section Code

open STorrentPeer

/-- The bytes of a text of the source. -/
def ascii (s : String) : List UInt8 := s.toList.map fun c => UInt8.ofNat c.toNat

/-- What a peer of the old family is written as. -/
def bytes4 (p : STorrentPeer) : List UInt8 := bigEndian 4 p.IPv4.toNat ++ bigEndian 2 p.Port.toNat

/-- What a peer of the new family is written as. -/
def bytes6 (p : STorrentPeer) : List UInt8 := p.IPv6.toList ++ bigEndian 2 p.Port.toNat

/-- The peers that are written with an address of the new family. -/
def written6 (peers : List STorrentPeer) : List STorrentPeer := peers.filter fun p => p.HasV6

/-- The peers that are written with an address of the old family. -/
def written4 (peers : List STorrentPeer) : List STorrentPeer :=
  peers.filter fun p => ¬p.HasV6 ∧ p.HasV4

/-- The map of `CTorrentClient::SendPeerList` for the peers that it takes up. -/
def messageItems (Added Dropped : List STorrentPeer) : List (List UInt8 × List UInt8) :=
  [(ascii "added", (written4 Added).flatMap bytes4), (ascii "added.f", (written4 Added).map STorrentPeer.ConOpts),
    (ascii "added6", (written6 Added).flatMap bytes6),
    (ascii "added6.f", (written6 Added).map STorrentPeer.ConOpts),
    (ascii "dropped.f", (written4 Dropped).flatMap bytes4),
    (ascii "dropped6.f", (written6 Dropped).flatMap bytes6)]

/-- The unspecified order in which a `QSet` is gone through. -/
abbrev Order := List STorrentPeer → List STorrentPeer

/-- The peers that a message takes up: `MaxAdded` and `MaxDropped` are 100. -/
def takenUp (order : Order) (peers : List STorrentPeer) : List STorrentPeer := (order peers).take 100

/-- The data of a message for the peers that were added and dropped. -/
def message (order : Order) (AddedList DroppedList : List STorrentPeer) : List UInt8 :=
  encodeMap ((messageItems (takenUp order AddedList) (takenUp order DroppedList)).map fun i =>
    (i.1, encode i.2))

/-- The peers of a file's transfers that are not checked. -/
def uncheckedPeers (transfers : List CTransfer) : List STorrentPeer :=
  transfers.filterMap fun pTransfer => if pTransfer.isChecked then none else pTransfer.m_Peer

/-- What `CTorrentClient::SendPeerList` makes. -/
structure Sent where
  AddedList : List STorrentPeer
  DroppedList : List STorrentPeer
  /-- The packet. -/
  Packet : List UInt8
  /-- `m_PeerList` afterwards. -/
  m_PeerList : List STorrentPeer

/-- `CTorrentClient::SendPeerList` for a torrent that is known and not private. -/
def sendPeerList (order : Order) (m_ut_pex_Extension : UInt8) (m_PeerList : List STorrentPeer)
    (transfers : List CTransfer) : Sent :=
  let (DroppedList, AddedList) := diff Same m_PeerList (uncheckedPeers transfers)
  { AddedList := AddedList
    DroppedList := DroppedList
    Packet := eExtended :: m_ut_pex_Extension :: message order AddedList DroppedList
    m_PeerList := (takenUp order DroppedList).foldl (remove Same)
      ((takenUp order AddedList).foldl (insert Same) m_PeerList) }

/-- A peer of the old family is read. -/
def readPeer4 : Reader STorrentPeer := do
  let IP ← readValue 4
  let Port ← readValue 2
  return { init.setIPv4 (UInt32.ofNat IP) with Port := UInt16.ofNat Port }

/-- A peer of the new family is read. -/
def readPeer6 : Reader STorrentPeer := do
  let IP ← readBytes 16
  let Port ← readValue 2
  return if h : IP.length = 16 then { init.setIPv6 ⟨IP, h⟩ with Port := UInt16.ofNat Port } else init

/-- A loop over some peers. -/
def readPeers (readPeer : Reader STorrentPeer) : ℕ → Reader (List STorrentPeer)
  | 0 => pure []
  | n + 1 => do
    let Peer ← readPeer
    let Peers ← readPeers readPeer n
    return Peer :: Peers

/-- The peers of a list whose entries have a size, none if its length does not fit. -/
def listed (readPeer : Reader STorrentPeer) (size : ℕ) (Data : List UInt8) : List STorrentPeer :=
  if Data.length % size = 0 then
    ((readPeers readPeer (Data.length / size) Data).map Prod.fst).getD []
  else []

/-- The peers of a list with as many flags, none if the lengths do not fit. -/
def listedWithFlags (readPeer : Reader STorrentPeer) (size : ℕ) (Data Flags : List UInt8) :
    List STorrentPeer :=
  if Data.length % size = 0 ∧ Flags.length = Data.length / size then
    (listed readPeer size Data).zipWith (fun Peer Bits => { Peer with ConOpts := Bits }) Flags
  else []

variable (toUInt : List UInt8 → Option ℕ) (other : Reader (List UInt8))
variable (otherValue : List UInt8 → List UInt8)

/-- What `CTorrentClient::ProcessPeerList` makes of a message. -/
structure Processed where
  /-- The peers that are added to the file. -/
  added : List STorrentPeer
  /-- The peers that are removed from the list. -/
  dropped : List STorrentPeer
  /-- `m_PeerList` afterwards. -/
  m_PeerList : List STorrentPeer

/-- `CTorrentClient::ProcessPeerList`. -/
def processPeerList (m_PeerList : List STorrentPeer) (Data : List UInt8) : Processed :=
  match readMap toUInt other Data with
  | none => ⟨[], [], m_PeerList⟩
  | some (Dict, _) =>
    let get := fun key => get toUInt otherValue Dict (ascii key)
    let added := listedWithFlags readPeer4 6 (get "added") (get "added.f") ++
      listedWithFlags readPeer6 18 (get "added6") (get "added6.f")
    let dropped := listed readPeer4 6 (get "dropped") ++ listed readPeer6 18 (get "dropped6")
    ⟨added, dropped, dropped.foldl (remove Same) (added.foldl (insert Same) m_PeerList)⟩

end Code

section Messages

open STorrentPeer

/-- A peer with its address of the old family alone. -/
def asSent4 (p : STorrentPeer) : STorrentPeer := { init.setIPv4 p.IPv4 with Port := p.Port }

/-- A peer with its address of the new family alone. -/
def asSent6 (p : STorrentPeer) : STorrentPeer := { init.setIPv6 p.IPv6 with Port := p.Port }

/-- The peers that are read for those that were taken up. -/
def recovered (peers : List STorrentPeer) : List STorrentPeer :=
  ((written4 peers).map fun p => { asSent4 p with ConOpts := p.ConOpts }) ++
    (written6 peers).map fun p => { asSent6 p with ConOpts := p.ConOpts }

variable (p : STorrentPeer)

@[simp] theorem length_bytes4 : (bytes4 p).length = 6 := by
  simp [bytes4, bigEndian]

@[simp] theorem length_bytes6 : (bytes6 p).length = 18 := by
  simp [bytes6, bigEndian]

theorem reads_portNumber (Port : UInt16) : Reads (readValue 2) (bigEndian 2 Port.toNat) Port.toNat :=
  reads_value Port.toNat_lt

theorem reads_peer4 : Reads readPeer4 (bytes4 p) (asSent4 p) := by
  have hport := reads_bind_pure (f := fun Port : ℕ =>
    ({ init.setIPv4 (UInt32.ofNat p.IPv4.toNat) with Port := UInt16.ofNat Port } : STorrentPeer))
    (reads_portNumber p.Port)
  have hIP : Reads (readValue 4) (bigEndian 4 p.IPv4.toNat) p.IPv4.toNat := reads_value p.IPv4.toNat_lt
  refine reads_bind hIP ?_
  simpa [asSent4] using hport

theorem reads_peer6 : Reads readPeer6 (bytes6 p) (asSent6 p) := by
  have hlength : p.IPv6.toList.length = 16 := p.IPv6.toList_length
  have hbytes : Reads (readBytes 16) p.IPv6.toList p.IPv6.toList := by
    have h := reads_bytes p.IPv6.toList
    rwa [hlength] at h
  refine reads_bind hbytes ?_
  have hport := reads_bind_pure (f := fun Port : ℕ =>
    ({ init.setIPv6 p.IPv6 with Port := UInt16.ofNat Port } : STorrentPeer))
    (reads_portNumber p.Port)
  simpa [hlength, asSent6] using hport

section Lists

variable {readPeer : Reader STorrentPeer} {size : ℕ} {write : STorrentPeer → List UInt8}
variable {contact : STorrentPeer → STorrentPeer} {peers : List STorrentPeer}

theorem reads_peers (hread : ∀ p, Reads readPeer (write p) (contact p)) (peers : List STorrentPeer) :
    Reads (readPeers readPeer peers.length) (peers.flatMap write) (peers.map contact) := by
  induction peers with
  | nil => exact reads_pure []
  | cons p peers ih =>
    rw [List.flatMap_cons]
    exact reads_bind (hread p) (reads_bind_pure ih)

theorem length_flatMap (hsize : ∀ p, (write p).length = size) (peers : List STorrentPeer) :
    (peers.flatMap write).length = peers.length * size := by
  induction peers with
  | nil => simp
  | cons p peers ih => simp [ih, hsize, Nat.add_mul, Nat.add_comm]

theorem listed_flatMap (hread : ∀ p, Reads readPeer (write p) (contact p))
    (hsize : ∀ p, (write p).length = size) (hpos : 0 < size) (peers : List STorrentPeer) :
    listed readPeer size (peers.flatMap write) = peers.map contact := by
  have hall := reads_peers hread peers []
  rw [List.append_nil] at hall
  rw [listed, length_flatMap hsize, Nat.mul_div_cancel _ hpos, hall]
  simp

theorem listedWithFlags_flatMap (hread : ∀ p, Reads readPeer (write p) (contact p))
    (hsize : ∀ p, (write p).length = size) (hpos : 0 < size) (peers : List STorrentPeer) :
    listedWithFlags readPeer size (peers.flatMap write) (peers.map STorrentPeer.ConOpts) =
      peers.map fun p => { contact p with ConOpts := p.ConOpts } := by
  have hlength := length_flatMap hsize peers
  have hcount : (peers.flatMap write).length / size = peers.length := by
    rw [hlength, Nat.mul_div_cancel _ hpos]
  rw [listedWithFlags, listed_flatMap hread hsize hpos, hcount, if_pos (by simp [hlength]),
    List.zipWith_map, List.zipWith_self]

end Lists

variable {order : Order} {AddedList DroppedList : List STorrentPeer}

theorem length_takenUp_le (order : Order) (peers : List STorrentPeer) :
    (takenUp order peers).length ≤ 100 := by simp [takenUp]

/-- The byte arrays of a message are short. -/
theorem length_messageItems {Added Dropped : List STorrentPeer} (hadded : Added.length ≤ 100)
    (hdropped : Dropped.length ≤ 100) :
    ∀ i ∈ messageItems Added Dropped, i.1.length < 2 ^ 32 ∧ i.2.length < 2 ^ 32 := by
  have h4 : ∀ peers : List STorrentPeer, (written4 peers).length ≤ peers.length :=
    fun peers => List.length_filter_le _ _
  have h6 : ∀ peers : List STorrentPeer, (written6 peers).length ≤ peers.length :=
    fun peers => List.length_filter_le _ _
  have ha4 := h4 Added
  have ha6 := h6 Added
  have hd4 := h4 Dropped
  have hd6 := h6 Dropped
  simp only [messageItems, List.forall_mem_cons, length_flatMap length_bytes4, length_flatMap length_bytes6,
    List.length_map]
  refine ⟨⟨by decide, by omega⟩, ⟨by decide, by omega⟩, ⟨by decide, by omega⟩, ⟨by decide, by omega⟩,
    ⟨by decide, by omega⟩, ⟨by decide, by omega⟩, nofun⟩

variable {toUInt : List UInt8 → Option ℕ}

/-- The peers that were added are read, but none of those that were dropped. -/
theorem processPeerList_message (hnumber : ∀ n < 2 ^ 32, toUInt (number n) = some n)
    (other : Reader (List UInt8)) (otherValue : List UInt8 → List UInt8)
    (m_PeerList : List STorrentPeer) (order : Order) (AddedList DroppedList : List STorrentPeer) :
    processPeerList toUInt other otherValue m_PeerList (message order AddedList DroppedList) =
      ⟨recovered (takenUp order AddedList), [],
        (recovered (takenUp order AddedList)).foldl (insert Same) m_PeerList⟩ := by
  have hitems := length_messageItems (length_takenUp_le order AddedList) (length_takenUp_le order DroppedList)
  generalize hA : takenUp order AddedList = A at hitems
  generalize hD : takenUp order DroppedList = D at hitems
  have hread := readMap_encodeMap hnumber other hitems
  have hmap : ∀ key buf, (key, buf) ∈ messageItems A D →
      mapOf (fun _ => none) (messageItems A D) key = some (encode buf) := by
    intro key buf hm
    simp only [messageItems, List.mem_cons, Prod.mk.injEq, List.not_mem_nil, or_false] at hm
    rcases hm with ⟨rfl, rfl⟩ | ⟨rfl, rfl⟩ | ⟨rfl, rfl⟩ | ⟨rfl, rfl⟩ | ⟨rfl, rfl⟩ | ⟨rfl, rfl⟩ <;>
      simp [messageItems, mapOf, BencodedMap.insert, Function.update, ascii]
  have hget : ∀ key buf, (key, buf) ∈ messageItems A D →
      get toUInt otherValue (mapOf (fun _ => none) (messageItems A D)) key = buf := fun key buf hm =>
    get_encode hnumber otherValue (hmap key buf hm) (hitems _ hm).2
  have hnone : ∀ key ∈ [ascii "dropped", ascii "dropped6"],
      get toUInt otherValue (mapOf (fun _ => none) (messageItems A D)) key = [] := by
    intro key hkey
    refine get_none otherValue ?_
    simp only [List.mem_cons, List.not_mem_nil, or_false] at hkey
    rcases hkey with rfl | rfl <;> simp [messageItems, mapOf, BencodedMap.insert, Function.update, ascii]
  have h4 := hget (ascii "added") ((written4 A).flatMap bytes4) (by simp [messageItems])
  have h4f := hget (ascii "added.f") ((written4 A).map STorrentPeer.ConOpts) (by simp [messageItems])
  have h6 := hget (ascii "added6") ((written6 A).flatMap bytes6) (by simp [messageItems])
  have h6f := hget (ascii "added6.f") ((written6 A).map STorrentPeer.ConOpts) (by simp [messageItems])
  have hd4 := hnone (ascii "dropped") (by simp)
  have hd6 := hnone (ascii "dropped6") (by simp)
  have hempty4 : listed readPeer4 6 [] = [] := rfl
  have hempty6 : listed readPeer6 18 [] = [] := rfl
  rw [processPeerList, message, hA, hD, hread]
  simp only [h4, h4f, h6, h6f, hd4, hd6, listedWithFlags_flatMap reads_peer4 length_bytes4 (by omega),
    listedWithFlags_flatMap reads_peer6 length_bytes6 (by omega), hempty4, hempty6, List.append_nil,
    List.foldl_nil, recovered]

/-- The peers that a message is about are recovered, those that were added with their flags. -/
structure Recovered (AddedList DroppedList : List STorrentPeer) (message : Processed) : Prop where
  /-- The peers that were added. -/
  added : ∃ Peers, Peers.Perm message.added ∧
    List.Forall₂ (fun p q => Equal p q ∧ p.ConOpts = q.ConOpts) AddedList Peers
  /-- The peers that were dropped. -/
  dropped : ∃ Peers, Peers.Perm message.dropped ∧ List.Forall₂ Equal DroppedList Peers

/-- A peer with the address that is written. -/
def asSent (p : STorrentPeer) : STorrentPeer :=
  { (if p.HasV6 then asSent6 p else asSent4 p) with ConOpts := p.ConOpts }

/-- With its address a peer is the same. -/
theorem equal_asSent {p : STorrentPeer} (h : p.HasAddress) : Equal p (asSent p) := by
  have hport : (asSent p).Port = p.Port := by
    rw [asSent]
    split_ifs <;> rfl
  refine ⟨fun hne => hne.2.2 hport.symm, ?_⟩
  by_cases h6 : p.HasV6
  · have hIP : (asSent p).IPv6 = p.IPv6 := by
      rw [asSent, if_pos h6]
      rfl
    exact Or.inr ⟨h6, by rwa [HasV6, hIP], hIP.symm⟩
  · have h4 : p.HasV4 := h.resolve_right h6
    have hIP : (asSent p).IPv4 = p.IPv4 := by
      rw [asSent, if_neg h6]
      rfl
    exact Or.inl ⟨h4, by rwa [HasV4, hIP], hIP.symm⟩

theorem length_recovered_le (peers : List STorrentPeer) : (recovered peers).length ≤ peers.length := by
  have hold : written4 peers = (peers.filter fun p => !decide p.HasV6).filter fun p => p.HasV4 := by
    simp [written4, List.filter_filter, Bool.and_comm]
  have hle := List.length_filter_le (fun p => decide p.HasV4) (peers.filter fun p => !decide p.HasV6)
  have hperm := (List.filter_append_perm (fun p => decide p.HasV6) peers).length_eq
  rw [List.length_append] at hperm
  simp only [recovered, hold, written6, List.length_append, List.length_map]
  omega

theorem recovered_perm {peers : List STorrentPeer} (h : ∀ p ∈ peers, p.HasAddress) :
    (recovered peers).Perm (peers.map asSent) := by
  have h4 : written4 peers = peers.filter fun p => !decide p.HasV6 := by
    refine List.filter_congr fun p hp => ?_
    have haddress := h p hp
    by_cases h6 : p.HasV6
    · simp [h6]
    · simp [h6, haddress.resolve_right h6]
  have hold : (written4 peers).map (fun p => { asSent4 p with ConOpts := p.ConOpts }) =
      (written4 peers).map asSent := by
    refine List.map_congr_left fun p hp => ?_
    have h6 : ¬p.HasV6 := (by simpa [written4] using hp : p ∈ peers ∧ ¬p.HasV6 ∧ p.HasV4).2.1
    rw [asSent, if_neg h6]
  have hnew : (written6 peers).map (fun p => { asSent6 p with ConOpts := p.ConOpts }) =
      (written6 peers).map asSent := by
    refine List.map_congr_left fun p hp => ?_
    have h6 : p.HasV6 := (by simpa [written6] using hp : p ∈ peers ∧ p.HasV6).2
    rw [asSent, if_pos h6]
  rw [recovered, hold, hnew, ← List.map_append, h4]
  exact (List.perm_append_comm.trans (List.filter_append_perm (fun p => decide p.HasV6) peers)).map asSent

/-- The peers of a message are recovered exactly if none was dropped, and up to a hundred were added that
all have an address. -/
theorem recovered_iff (hnumber : ∀ n < 2 ^ 32, toUInt (number n) = some n)
    (other : Reader (List UInt8)) (otherValue : List UInt8 → List UInt8)
    (m_PeerList : List STorrentPeer) (horder : ∀ peers, (order peers).Perm peers)
    (AddedList DroppedList : List STorrentPeer) :
    Recovered AddedList DroppedList
        (processPeerList toUInt other otherValue m_PeerList (message order AddedList DroppedList)) ↔
      AddedList.length ≤ 100 ∧ (∀ p ∈ AddedList, p.HasAddress) ∧ DroppedList = [] := by
  rw [processPeerList_message hnumber]
  constructor
  · rintro ⟨⟨Added, hadded, hequal⟩, ⟨Dropped, hdropped, hgone⟩⟩
    refine ⟨?_, fun p hp => ?_, ?_⟩
    · have hle := length_recovered_le (takenUp order AddedList)
      have hhundred := length_takenUp_le order AddedList
      have hlength : AddedList.length = Added.length := hequal.length_eq
      have hperm : Added.length = (recovered (takenUp order AddedList)).length := hadded.length_eq
      omega
    · obtain ⟨i, hi, rfl⟩ := List.mem_iff_getElem.mp hp
      have hpq := (List.forall₂_iff_get.mp hequal).2 i hi (by rwa [← hequal.length_eq])
      rcases hpq.1.2 with h | h
      · exact Or.inl h.1
      · exact Or.inr h.1
    · rw [hdropped.eq_nil] at hgone
      exact List.forall₂_nil_right_iff.mp hgone
  · rintro ⟨hlength, haddress, rfl⟩
    have htaken : takenUp order AddedList = order AddedList :=
      List.take_of_length_le (by rw [(horder AddedList).length_eq]; exact hlength)
    refine ⟨⟨AddedList.map asSent, ?_, ?_⟩, ⟨[], List.Perm.refl _, List.Forall₂.nil⟩⟩
    · rw [htaken]
      refine ((horder AddedList).symm.map asSent).trans (recovered_perm fun p hp => ?_).symm
      exact haddress p ((horder AddedList).mem_iff.mp hp)
    · refine List.forall₂_map_right_iff.mpr (List.forall₂_same.mpr fun p hp => ?_)
      exact ⟨equal_asSent (haddress p hp), rfl⟩

end Messages

section Runs

open STorrentPeer

theorem Same.symm {p q : STorrentPeer} (h : Same p q) : Same q p := by
  obtain ⟨hhash, hport, hIP⟩ := h
  refine ⟨hhash.symm, fun hne => hport ⟨hne.2.1, hne.1, fun he => hne.2.2 he.symm⟩, ?_⟩
  rcases hIP with ⟨hp, hq, he⟩ | ⟨hp, hq, he⟩
  · exact Or.inl ⟨hq, hp, he.symm⟩
  · exact Or.inr ⟨hq, hp, he.symm⟩

/-- A peer of one family with a port. -/
def Plain (p : STorrentPeer) : Prop :=
  p.Port ≠ 0 ∧ ((p.HasV4 ∧ ¬p.HasV6) ∨ (p.HasV6 ∧ ¬p.HasV4))

/-- Peers of one family with a port are told apart by their addresses and ports. -/
theorem equivOn_plain : EquivOn Same Plain where
  refl p h := by
    refine ⟨rfl, fun hne => hne.2.2 rfl, ?_⟩
    rcases h.2 with ⟨h4, -⟩ | ⟨h6, -⟩
    · exact Or.inl ⟨h4, h4, rfl⟩
    · exact Or.inr ⟨h6, h6, rfl⟩
  symm _ _ := Same.symm
  trans p q r hp hq hr hpq hqr := by
    have hport : p.Port = q.Port := not_not.mp fun hne => hpq.2.1 ⟨hp.1, hq.1, hne⟩
    have hport' : q.Port = r.Port := not_not.mp fun hne => hqr.2.1 ⟨hq.1, hr.1, hne⟩
    refine ⟨hpq.1.trans hqr.1, fun hne => hne.2.2 (hport.trans hport'), ?_⟩
    rcases hpq.2.2 with ⟨hp4, hq4, he⟩ | ⟨hp6, hq6, he⟩ <;> rcases hqr.2.2 with ⟨hq4', hr4, he'⟩ | ⟨hq6', hr6, he'⟩
    · exact Or.inl ⟨hp4, hr4, he.trans he'⟩
    · rcases hq.2 with h | h
      · exact absurd hq6' h.2
      · exact absurd hq4 h.2
    · rcases hq.2 with h | h
      · exact absurd hq6 h.2
      · exact absurd hq4' h.2
    · exact Or.inr ⟨hp6, hr6, he.trans he'⟩

/-- What happens to the list of the peers that the other client knows. -/
inductive Event where
  /-- The peers of some transfers are sent. -/
  | send (transfers : List CTransfer)
  /-- The data of a message is received. -/
  | receive (Data : List UInt8)

/-- A message that is sent, with the peers at the last message and those at this one. -/
structure Exchange where
  /-- The peers at the last message. -/
  before : List STorrentPeer
  /-- The peers at this message. -/
  now : List STorrentPeer
  /-- What is sent. -/
  sent : Sent

/-- A message reports each peer once that was added or dropped since the last message, and no others. -/
structure Reports (e : Exchange) : Prop where
  /-- The peers that were added. -/
  added : ∀ p, p ∈ e.sent.AddedList ↔ p ∈ e.now ∧ ¬Mem Same p e.before
  /-- They are reported once. -/
  added_once : Distinct Same e.sent.AddedList
  /-- Only peers that were dropped are reported as such. -/
  dropped : ∀ p ∈ e.sent.DroppedList, Mem Same p e.before ∧ ¬Mem Same p e.now
  /-- All peers that were dropped are reported. -/
  dropped_all : ∀ p ∈ e.before, ¬Mem Same p e.now → Mem Same p e.sent.DroppedList
  /-- They are reported once. -/
  dropped_once : Distinct Same e.sent.DroppedList

variable (toUInt : List UInt8 → Option ℕ) (other : Reader (List UInt8))
variable (otherValue : List UInt8 → List UInt8) (order : Order) (m_ut_pex_Extension : UInt8)

/-- The messages that are sent in a run, from a list of peers and the peers at the last message on. -/
def exchanges : List Event → List STorrentPeer → List STorrentPeer → List Exchange
  | [], _, _ => []
  | Event.send transfers :: events, m_PeerList, before =>
    let sent := sendPeerList order m_ut_pex_Extension m_PeerList transfers
    ⟨before, uncheckedPeers transfers, sent⟩ :: exchanges events sent.m_PeerList (uncheckedPeers transfers)
  | Event.receive Data :: events, m_PeerList, before =>
    exchanges events (processPeerList toUInt other otherValue m_PeerList Data).m_PeerList before

/-- At each message up to a hundred peers have come and gone, and what is received tells nothing new. -/
def Regular (U : STorrentPeer → Prop) : List Event → List STorrentPeer → Prop
  | [], _ => True
  | Event.send transfers :: events, m_PeerList =>
    (∀ p ∈ uncheckedPeers transfers, U p) ∧ Distinct Same (uncheckedPeers transfers) ∧
      (missing Same (uncheckedPeers transfers) m_PeerList).length ≤ 100 ∧
      (missing Same m_PeerList (uncheckedPeers transfers)).length ≤ 100 ∧
      Regular U events (sendPeerList order m_ut_pex_Extension m_PeerList transfers).m_PeerList
  | Event.receive Data :: events, m_PeerList =>
    let read := processPeerList toUInt other otherValue m_PeerList Data
    (∀ p ∈ read.added, Mem Same p m_PeerList) ∧ (∀ p ∈ read.dropped, ¬Mem Same p m_PeerList) ∧
      Regular U events read.m_PeerList

/-- The list is that of the peers at the last message. -/
structure InStep (U : STorrentPeer → Prop) (m_PeerList before : List STorrentPeer) : Prop where
  /-- The peers of the list are different ones. -/
  distinct : Distinct Same m_PeerList
  /-- They are peers of a kind. -/
  list_mem : ∀ p ∈ m_PeerList, U p
  /-- So are those at the last message. -/
  before_mem : ∀ p ∈ before, U p
  /-- They are the same peers. -/
  isMatch : Matches Same m_PeerList before

variable {toUInt other otherValue order m_ut_pex_Extension} {U : STorrentPeer → Prop}
variable {m_PeerList before : List STorrentPeer}

theorem m_PeerList_processPeerList (m_PeerList : List STorrentPeer) (Data : List UInt8) :
    (processPeerList toUInt other otherValue m_PeerList Data).m_PeerList =
      (processPeerList toUInt other otherValue m_PeerList Data).dropped.foldl (remove Same)
        ((processPeerList toUInt other otherValue m_PeerList Data).added.foldl (insert Same) m_PeerList) := by
  unfold processPeerList
  split <;> rfl

theorem processPeerList_known {Data : List UInt8}
    (hadded : ∀ p ∈ (processPeerList toUInt other otherValue m_PeerList Data).added, Mem Same p m_PeerList)
    (hdropped : ∀ p ∈ (processPeerList toUInt other otherValue m_PeerList Data).dropped, ¬Mem Same p m_PeerList) :
    (processPeerList toUInt other otherValue m_PeerList Data).m_PeerList = m_PeerList := by
  rw [m_PeerList_processPeerList, foldl_insert_of_mem hadded, foldl_remove_of_not_mem hdropped]

/-- A message reports what has changed, and then the list is that of the peers at this message. -/
theorem sendPeerList_ok (hr : EquivOn Same U) (horder : ∀ peers, (order peers).Perm peers)
    (h : InStep U m_PeerList before) {transfers : List CTransfer}
    (hU : ∀ p ∈ uncheckedPeers transfers, U p) (hdistinct : Distinct Same (uncheckedPeers transfers))
    (hcome : (missing Same (uncheckedPeers transfers) m_PeerList).length ≤ 100)
    (hgone : (missing Same m_PeerList (uncheckedPeers transfers)).length ≤ 100)
    (m_ut_pex_Extension : UInt8) :
    Reports ⟨before, uncheckedPeers transfers, sendPeerList order m_ut_pex_Extension m_PeerList transfers⟩ ∧
      InStep U (sendPeerList order m_ut_pex_Extension m_PeerList transfers).m_PeerList (uncheckedPeers transfers) := by
  generalize hnow : uncheckedPeers transfers = now at *
  have hdiff := diff_eq hr h.distinct h.list_mem hdistinct hU
  have htaken : ∀ peers : List STorrentPeer, peers.length ≤ 100 → (takenUp order peers).Perm peers := by
    intro peers hle
    rw [takenUp, List.take_of_length_le (by rw [(horder peers).length_eq]; exact hle)]
    exact horder peers
  have hupdate := matches_update hr h.distinct h.list_mem hdistinct hU (htaken _ hcome) (htaken _ hgone)
  have hknown : ∀ p, U p → (Mem Same p m_PeerList ↔ Mem Same p before) := fun p hp =>
    h.isMatch.mem_iff hr h.list_mem h.before_mem hp
  simp only [sendPeerList, hnow, hdiff]
  refine ⟨⟨fun p => ?_, hdistinct.filter _, fun p hp => ?_, fun p hp hmissing => ?_, h.distinct.filter _⟩,
    hupdate.1, hupdate.2.1, hU, hupdate.2.2⟩
  · rw [mem_missing]
    exact and_congr_right fun hp => not_congr (hknown p (hU p hp))
  · obtain ⟨hlist, hmissing⟩ := mem_missing.mp hp
    exact ⟨h.isMatch.left p hlist, hmissing⟩
  · obtain ⟨q, hq, hpq⟩ := h.isMatch.right p hp
    refine ⟨q, mem_missing.mpr ⟨hq, ?_⟩, hpq⟩
    rintro ⟨n, hn, hqn⟩
    exact hmissing ⟨n, hn, hr.trans p q n (h.before_mem p hp) (h.list_mem q hq) (hU n hn) hpq hqn⟩

/-- In a run each message reports what has changed since the last one. -/
theorem exchanges_report (hr : EquivOn Same U) (horder : ∀ peers, (order peers).Perm peers)
    {events : List Event} (h : InStep U m_PeerList before)
    (hregular : Regular toUInt other otherValue order m_ut_pex_Extension U events m_PeerList) :
    ∀ e ∈ exchanges toUInt other otherValue order m_ut_pex_Extension events m_PeerList before,
      Reports e ∧ (∀ p ∈ e.before, U p) ∧ (∀ p ∈ e.now, U p) ∧ (∀ p ∈ e.sent.DroppedList, U p) ∧
        e.sent.AddedList.length ≤ 100 ∧
        e.sent.Packet.drop 2 = message order e.sent.AddedList e.sent.DroppedList := by
  induction events generalizing m_PeerList before with
  | nil => exact nofun
  | cons event events ih =>
    cases event with
    | send transfers =>
      obtain ⟨hU, hdistinct, hcome, hgone, hrest⟩ := hregular
      obtain ⟨hreports, hnext⟩ := sendPeerList_ok hr horder h hU hdistinct hcome hgone m_ut_pex_Extension
      have hdiff := diff_eq hr h.distinct h.list_mem hdistinct hU
      refine List.forall_mem_cons.mpr ⟨⟨hreports, h.before_mem, hU, fun p hp => ?_, ?_, rfl⟩, ih hnext hrest⟩
      · simp only [sendPeerList, hdiff] at hp
        exact h.list_mem p (mem_missing.mp hp).1
      · simpa [sendPeerList, hdiff] using hcome
    | receive Data =>
      obtain ⟨hadded, hdropped, hrest⟩ := hregular
      have hsame := processPeerList_known hadded hdropped
      rw [hsame] at hrest
      rw [exchanges, hsame]
      exact ih h hrest

/-- The peers of a message are recovered exactly if none was dropped, and up to a hundred were added that
all have an address. In a run where up to a hundred peers come and go at a time, and nothing new is
received, each message reports every peer once that was added or dropped since the last one, and
is recovered exactly if none was dropped. -/
theorem exchanges_recovered_iff (hnumber : ∀ n < 2 ^ 32, toUInt (number n) = some n)
    (other : Reader (List UInt8)) (otherValue : List UInt8 → List UInt8)
    (horder : ∀ peers, (order peers).Perm peers) (hr : EquivOn Same U) (m_ut_pex_Extension : UInt8) :
    (∀ m_PeerList AddedList DroppedList, Recovered AddedList DroppedList
      (processPeerList toUInt other otherValue m_PeerList (message order AddedList DroppedList)) ↔
        AddedList.length ≤ 100 ∧ (∀ p ∈ AddedList, p.HasAddress) ∧ DroppedList = []) ∧
    ∀ events, Regular toUInt other otherValue order m_ut_pex_Extension U events [] →
      ∀ e ∈ exchanges toUInt other otherValue order m_ut_pex_Extension events [] [],
        Reports e ∧ ∀ m_PeerList, Recovered e.sent.AddedList e.sent.DroppedList
          (processPeerList toUInt other otherValue m_PeerList (e.sent.Packet.drop 2)) ↔
            ∀ p ∈ e.before, Mem Same p e.now := by
  refine ⟨fun m_PeerList AddedList DroppedList =>
    recovered_iff hnumber other otherValue m_PeerList horder AddedList DroppedList, ?_⟩
  intro events hregular e he
  have hstart : InStep U [] [] := ⟨List.Pairwise.nil, nofun, nofun, nofun, nofun⟩
  obtain ⟨hreports, hbefore, hnow, hdropped, hlength, hpacket⟩ :=
    exchanges_report hr horder hstart hregular e he
  refine ⟨hreports, fun m_PeerList => ?_⟩
  have haddress : ∀ p ∈ e.sent.AddedList, p.HasAddress := by
    intro p hp
    rcases (hr.refl p (hnow p ((hreports.added p).mp hp).1)).2.2 with h | h
    · exact Or.inl h.1
    · exact Or.inr h.1
  rw [hpacket, recovered_iff hnumber other otherValue m_PeerList horder]
  constructor
  · rintro ⟨-, -, hnone⟩ p hp
    by_contra hmissing
    have hmem := hreports.dropped_all p hp hmissing
    rw [hnone] at hmem
    exact not_mem_nil hmem
  · intro hall
    refine ⟨hlength, haddress, List.eq_nil_iff_forall_not_mem.mpr fun p hp => ?_⟩
    obtain ⟨⟨q, hq, hpq⟩, hmissing⟩ := hreports.dropped p hp
    obtain ⟨n, hn, hqn⟩ := hall q hq
    exact hmissing ⟨n, hn, hr.trans p q n (hdropped p hp) (hbefore q hq) (hnow n hn) hpq hqn⟩

/-- The number that decimal digits give. -/
def decimal (s : List UInt8) : Option ℕ :=
  TextEncodings.digitsValue (s.map fun b => Char.ofNat b.toNat)

theorem decimal_number (n : ℕ) : decimal (number n) = some n := by
  have hchars : (number n).map (fun b => Char.ofNat b.toNat) = Nat.toDigits 10 n := by
    rw [number, List.map_map]
    refine (List.map_congr_left fun c hc => ?_).trans (List.map_id _)
    have hdigit := Nat.isDigit_of_mem_toDigits (by omega) (by omega) hc
    simp only [Char.isDigit, Bool.and_eq_true, decide_eq_true_eq] at hdigit
    have hhigh : c.toNat ≤ 57 := hdigit.2
    simp only [Function.comp_apply, id_eq, UInt8.toNat_ofNat']
    rw [Nat.mod_eq_of_lt (by omega), Char.ofNat_toNat]
  rw [decimal, hchars, TextEncodings.digitsValue_toDigits]

/-- A peer of the old family. -/
def somePeer : STorrentPeer := ⟨0x01020304, List.Vector.replicate 16 0, EAF.ipv4, 6881, 5⟩

theorem plain_somePeer : Plain somePeer := by
  refine ⟨by decide, Or.inl ⟨?_, ?_⟩⟩ <;> simp [HasV4, HasV6, somePeer]

/-- A peer that is added is recovered. -/
theorem exchanges_recovered_iff_added :
    ∃ e ∈ exchanges decimal (fun _ => none) id id 1 [Event.send [⟨false, some somePeer⟩]] [] [],
      Reports e ∧ Recovered e.sent.AddedList e.sent.DroppedList
        (processPeerList decimal (fun _ => none) id [] (e.sent.Packet.drop 2)) := by
  have hregular : Regular decimal (fun _ => none) id id 1 Plain [Event.send [⟨false, some somePeer⟩]] [] := by
    simp [Regular, uncheckedPeers, plain_somePeer, Distinct, missing]
  obtain ⟨hreports, hiff⟩ := (exchanges_recovered_iff (fun n _ => decimal_number n) (fun _ => none) id
    (fun peers => List.Perm.refl peers) equivOn_plain 1).2 _ hregular _ List.mem_cons_self
  exact ⟨_, List.mem_cons_self, hreports, (hiff []).mpr (by simp)⟩

/-- A peer that was added and is dropped is not recovered. -/
theorem recovered_dropped_peer : (sendPeerList id 1 [] [⟨false, some somePeer⟩]).m_PeerList = [somePeer] ∧
      (sendPeerList id 1 [somePeer] []).DroppedList = [somePeer] ∧
      (sendPeerList id 1 [somePeer] []).AddedList = [] ∧
      ¬Recovered [] [somePeer] (processPeerList decimal (fun _ => none) id [somePeer]
        ((sendPeerList id 1 [somePeer] []).Packet.drop 2)) := by
  refine ⟨rfl, rfl, rfl, fun h => ?_⟩
  have hiff := recovered_iff (fun n _ => decimal_number n) (fun _ => none) id [somePeer]
    (fun peers => List.Perm.refl peers) [] [somePeer]
  exact absurd (hiff.mp h).2.2 (List.cons_ne_nil _ _)

end Runs

end NeoLoader.PeerExchange
