import NeoLoader.KeyMapTotals
import NeoLoader.NodeAddresses

/-!
# Authentication of channels

A channel belongs to a node from its first packet on. A key exchange that is signed makes
it authenticated, and so does the name of a key from an earlier exchange, or the answer to
a request with such a key; and the addresses that come over it are verified then.
Cryptography is idealised: a packet carries the key it is signed with, and the key of the
cipher it comes through. What the other handlers do, and the limits and times of nodes,
are left out.
-/

namespace NeoLoader.ChannelAuthentication

open KeyMap KeyMap.OrderedMap NodeAddresses

/-- Idealised cryptography. -/
structure Crypto where
  /-- `CKadID::MakeID`, of a key and the name of a hash function. -/
  makeID : ℕ → Option ℕ → ℕ
  /-- `FinaliseKeyExchange`, of one's own part and the other one. -/
  exchange : ℕ → ℕ → Option ℕ
  /-- `GetFingerPrint` of a trusted key. -/
  fingerPrint : ℕ → ℕ

structure CTrustedKey where
  /-- The key. -/
  key : ℕ
  /-- `IsAuthenticated`. -/
  authenticated : Bool
  deriving DecidableEq, Repr

structure CKadNode where
  /-- `GetID`. -/
  id : ℕ
  /-- The key of the identifier, once it is known. -/
  publicKey : Option ℕ
  /-- `GetTrustedKey`. -/
  trustedKey : Option CTrustedKey
  /-- `GetAddresses`. -/
  addresses : List CNodeAddress
  deriving DecidableEq, Repr

/-- A new node. -/
def CKadNode.new (id : ℕ) : CKadNode := ⟨id, none, none, []⟩

/-- `SKadData`: what is known of a channel. -/
structure SKadData where
  pNode : ℕ
  authenticated : Bool
  /-- The key that encrypts the channel. -/
  cipher : Option ℕ
  /-- The channel was closed. -/
  closed : Bool
  deriving DecidableEq, Repr

/-- `CKeyExchange`: one that is going on, or the key that is tried. -/
inductive CKeyExchange where
  /-- A key that is trusted. -/
  | trusted (key : ℕ)
  /-- One's own part of an exchange. -/
  | exchange (ephemeral : ℕ)
  deriving DecidableEq, Repr

structure SKeyExchange where
  /-- The node. -/
  pNode : ℕ
  /-- The channel. -/
  pChannel : ℕ
  bEncrypt : Bool
  bAuthenticate : Bool
  pExchange : Option CKeyExchange
  deriving DecidableEq, Repr

/-- `PK` and `HK` of a packet: the key, if it is one, and the name of a hash function. -/
structure IDKey where
  pk : Option ℕ
  hk : Option ℕ
  deriving DecidableEq, Repr

/-- `KAD_CRYPTO_REQUEST`. -/
structure CryptoRequest where
  ek : Option ℕ
  /-- `KA` is left out, or names an exchange that is known. -/
  ka : Bool
  fp : Option ℕ
  /-- `IV`, and whether it makes a cipher, with `SC`. -/
  iv : Option Bool
  /-- `PK` with `HK`. -/
  idKey : Option IDKey
  /-- The key the request is signed with. -/
  signed : Option ℕ
  deriving DecidableEq, Repr

/-- `KAD_CRYPTO_RESPONSE`. -/
structure CryptoResponse where
  err : Option String
  ek : Option ℕ
  /-- `IV`, and whether it makes a cipher. -/
  iv : Option Bool
  /-- `PK` with `HK`. -/
  idKey : Option IDKey
  /-- The key the response is signed with. -/
  signed : Option ℕ
  deriving DecidableEq, Repr

/-- The packets that have to do with channels. -/
inductive Packet where
  /-- `KAD_INIT`, with `NID`. -/
  | init (nid : ℕ)
  /-- `KAD_CRYPTO_REQUEST`. -/
  | cryptoRequest (request : CryptoRequest)
  /-- `KAD_CRYPTO_RESPONSE`. -/
  | cryptoResponse (response : CryptoResponse)
  /-- `KAD_HELLO_REQUEST` or `KAD_HELLO_RESPONSE`, with `ADDR`. -/
  | hello (bReq : Bool) (addr : List CNodeAddress)
  deriving DecidableEq, Repr

/-- One's own node. -/
structure Own where
  /-- The identifier. -/
  id : ℕ
  /-- The key of the identifier. -/
  publicKey : ℕ
  addrPool : List CNodeAddress
  deriving DecidableEq, Repr

/-- `CKadHandler`, with the nodes by the numbers of their objects. -/
structure CKadHandler where
  /-- The nodes. -/
  nodes : OrderedMap ℕ CKadNode
  /-- The channels. -/
  channels : OrderedMap ℕ SKadData
  /-- `m_KeyExchanges`, in the order in which they began. -/
  keyExchanges : List SKeyExchange
  /-- The packets sent on channels, the latest first. -/
  sent : List (ℕ × Packet)

/-- `CKadHandler::CKadHandler`. -/
def CKadHandler.new : CKadHandler := ⟨empty, empty, [], []⟩

section Keys

variable (c : Crypto)

/-- `CKadNode::SetIDKey`, with its result. -/
def CKadNode.setIDKey (info : IDKey) (n : CKadNode) : Option ℕ × CKadNode :=
  match info.pk with
  | none => (none, n)
  | some key =>
    match n.publicKey with
    | some known => (if known = key then some known else none, n)
    | none =>
      if c.makeID key info.hk = n.id then (some key, { n with publicKey := some key })
      else (none, n)

/-- `pPubKey`: the key that comes along, or the one that is known. -/
def CKadNode.pubKey (info : Option IDKey) (n : CKadNode) : Option ℕ × CKadNode :=
  match info with
  | some info => n.setIDKey c info
  | none => (n.publicKey, n)

/-- The check of a signature. -/
def CKadNode.verify (info : Option IDKey) (signed : Option ℕ) (n : CKadNode) : CKadNode × Option String :=
  match n.pubKey c info with
  | (none, n) => (n, some "MissingKey")
  | (some pPubKey, n) => (n, if signed = some pPubKey then none else some "InvalidSign")

/-- The branch of `HandleCryptoRequest` for a key exchange: the session key, or an error. -/
def exchangeRequest (ephemeral ek : ℕ) (request : CryptoRequest) (n : CKadNode) (data : SKadData) :
    CKadNode × SKadData × Except String ℕ :=
  match c.exchange ephemeral ek with
  | none => (n, data, Except.error "ExchangeFailed")
  | some key =>
    match (if request.signed.isSome then n.verify c request.idKey request.signed else (n, none)) with
    | (n, some error) => (n, data, Except.error error)
    | (n, none) =>
      ({ n with trustedKey := some ⟨key, request.signed.isSome⟩ },
        { data with authenticated := request.signed.isSome }, Except.ok key)

/-- The branch of `HandleCryptoRequest` for the name of a key. -/
def fingerPrintRequest (fp : ℕ) (n : CKadNode) (data : SKadData) : SKadData × Except String ℕ :=
  match n.trustedKey with
  | none => (data, Except.error "UnknownKey")
  | some pTrustedKey =>
    if c.fingerPrint pTrustedKey.key ≠ fp then (data, Except.error "UnknownKey")
    else ({ data with authenticated := pTrustedKey.authenticated }, Except.ok pTrustedKey.key)

/-- The part of `HandleCryptoRequest` that finds the session key. -/
def requestKey (ephemeral : ℕ) (request : CryptoRequest) (n : CKadNode) (data : SKadData) :
    CKadNode × SKadData × Except String ℕ :=
  match request.ek, request.fp with
  | some ek, _ =>
    if request.ka then exchangeRequest c ephemeral ek request n data
    else (n, data, Except.error "InvalidParam: KA")
  | none, some fp => (n, fingerPrintRequest c fp n data)
  | none, none => (n, data, Except.error "UnknownMethod")

/-- The cipher that an initial vector asks for. -/
def cipherOf (iv : Option Bool) (key : ℕ) : Except String (Option ℕ) :=
  match iv with
  | none => Except.ok none
  | some true => Except.ok (some key)
  | some false => Except.error "CryptoError"

/-- What `HandleCryptoRequest` answers. -/
def answerRequest (own : Own) (ephemeral : ℕ) (request : CryptoRequest) (data : SKadData)
    (found : Bool) (error : Option String) : CryptoResponse where
  err := error
  ek := if request.ek.isSome ∧ request.ka then some ephemeral else none
  iv := if found then request.iv.map fun _ => true else none
  idKey :=
    if error.isNone ∧ request.signed.isSome ∧ data.authenticated then
      some ⟨some own.publicKey, none⟩
    else none
  signed :=
    if error.isNone ∧ request.signed.isSome ∧ data.authenticated then some own.publicKey else none

/-- `HandleCryptoRequest`: the node and the channel after it, and the answer. -/
def handleCryptoRequest (own : Own) (ephemeral : ℕ) (request : CryptoRequest) (n : CKadNode)
    (data : SKadData) : CKadNode × SKadData × CryptoResponse :=
  match requestKey c ephemeral request n data with
  | (n, data, Except.error error) =>
    (n, data, answerRequest own ephemeral request data false (some error))
  | (n, data, Except.ok key) =>
    match cipherOf request.iv key with
    | Except.error error => (n, data, answerRequest own ephemeral request data true (some error))
    | Except.ok none => (n, data, answerRequest own ephemeral request data true none)
    | Except.ok (some key) =>
      (n, { data with cipher := some key }, answerRequest own ephemeral request data true none)

end Keys

section Exchanges

variable (c : Crypto) (own : Own)

/-- The request that `SendCryptoRequest` sends. -/
def cryptoRequest (exchange : CKeyExchange) (key : SKeyExchange) : CryptoRequest :=
  match exchange with
  | .trusted trusted => ⟨none, true, some (c.fingerPrint trusted), if key.bEncrypt then some true else none, none, none⟩
  | .exchange ephemeral => ⟨some ephemeral, true, none, if key.bEncrypt then some true else none,
      if key.bAuthenticate then some ⟨some own.publicKey, none⟩ else none,
      if key.bAuthenticate then some own.publicKey else none⟩

/-- Begin an exchange, with what is sent. -/
def startExchange (exchange : CKeyExchange) (key : SKeyExchange) : SKeyExchange × ℕ × Packet :=
  ({ key with pExchange := some exchange }, (key.pChannel, Packet.cryptoRequest (cryptoRequest c own exchange key)))

/-- The loop of `ResumeExchange` with a trusted key, and the first exchange that cannot use
it. -/
def resumeTrusted (pNode : ℕ) (pTrustedKey : CTrustedKey) : List SKeyExchange → List SKeyExchange × List (ℕ × Packet)
  | [] => ([], [])
  | key :: keys =>
    let rest := resumeTrusted pNode pTrustedKey keys
    if key.pNode = pNode ∧ key.pExchange = none ∧ (pTrustedKey.authenticated ∨ key.bAuthenticate = false) then
      let started := startExchange c own (CKeyExchange.trusted pTrustedKey.key) key
      (started.1 :: rest.1, started.2 :: rest.2)
    else (key :: rest.1, rest.2)

/-- The last part of `ResumeExchange`: the first exchange of a node that fits begins, if it
has not begun. -/
def resumeFirst (ephemeral : ℕ) (fits : SKeyExchange → Bool) : List SKeyExchange → List SKeyExchange × List (ℕ × Packet)
  | [] => ([], [])
  | key :: keys =>
    if fits key then
      if key.pExchange = none then
        let started := startExchange c own (CKeyExchange.exchange ephemeral) key
        (started.1 :: keys, [started.2])
      else (key :: keys, [])
    else (key :: (resumeFirst ephemeral fits keys).1, (resumeFirst ephemeral fits keys).2)

def resumeExchange (pNode ephemeral : ℕ) (h : CKadHandler) : CKadHandler :=
  match (h.nodes.get pNode).bind CKadNode.trustedKey with
  | some pTrustedKey =>
    let tried := resumeTrusted c own pNode pTrustedKey h.keyExchanges
    let first := resumeFirst c own ephemeral
      (fun key => key.pNode = pNode ∧ key.pExchange = none) tried.1
    { h with
      keyExchanges := first.1
      sent := first.2 ++ tried.2.reverse ++ h.sent }
  | none =>
    let first := resumeFirst c own ephemeral (fun key => key.pNode = pNode) h.keyExchanges
    { h with
      keyExchanges := first.1
      sent := first.2 ++ h.sent }

end Exchanges

section Handlers

variable (c : Crypto) (own : Own)

/-- A channel is closed, as an exception was thrown. -/
def CKadHandler.close (pChannel : ℕ) (h : CKadHandler) : CKadHandler :=
  { h with channels := h.channels.modify pChannel fun data => { data with closed := true } }

/-- The exchange of a channel. -/
def isExchange (pNode pChannel : ℕ) (key : SKeyExchange) : Bool :=
  key.pNode = pNode ∧ key.pChannel = pChannel

/-- A node and a channel changed. -/
def CKadHandler.set (pNode pChannel : ℕ) (n : CKadNode) (data : SKadData) (h : CKadHandler) :
    CKadHandler :=
  { h with
    nodes := h.nodes.insert pNode n
    channels := h.channels.insert pChannel data }

/-- The last part of `HandleCryptoResponse`: the channel is encrypted, and the exchange is
done. Without an initial vector of one's own the code crashes. -/
def finishExchange (response : CryptoResponse) (key : SKeyExchange) (sessionKey : ℕ)
    (h : CKadHandler) : Option CKadHandler :=
  let done := { h with keyExchanges := h.keyExchanges.eraseP (isExchange key.pNode key.pChannel) }
  match response.iv with
  | none => some done
  | some good =>
    if key.bEncrypt = false then none
    else if good then
      some { done with
        channels := done.channels.modify key.pChannel fun data =>
          { data with cipher := some sessionKey } }
    else some (h.close key.pChannel)

/-- The part of `HandleCryptoResponse` for an answer without an error. -/
def acceptResponse (ephemeral : ℕ) (response : CryptoResponse) (key : SKeyExchange) (n : CKadNode)
    (data : SKadData) (h : CKadHandler) : Option CKadHandler :=
  match key.pExchange with
  | none => none
  | some (.trusted trusted) =>
    finishExchange response key trusted
      (h.set key.pNode key.pChannel n { data with authenticated := key.bAuthenticate })
  | some (.exchange own') =>
    match response.ek.bind (c.exchange own') with
    | none => some (h.close key.pChannel)
    | some sessionKey =>
      match (if key.bAuthenticate then n.verify c response.idKey response.signed
        else (n, none)) with
      | (n, some _) => some ((h.set key.pNode key.pChannel n data).close key.pChannel)
      | (n, none) =>
        finishExchange response key sessionKey (resumeExchange c own key.pNode ephemeral (h.set key.pNode key.pChannel
            { n with trustedKey := some ⟨sessionKey, key.bAuthenticate⟩ }
            { data with authenticated := key.bAuthenticate }))

def handleCryptoResponse (ephemeral : ℕ) (response : CryptoResponse) (pNode pChannel : ℕ)
    (n : CKadNode) (data : SKadData) (h : CKadHandler) : Option CKadHandler :=
  match h.keyExchanges.find? (isExchange pNode pChannel) with
  | none => some (h.close pChannel)
  | some key =>
    match response.err with
    | none => acceptResponse c own ephemeral response key n data h
    | some error =>
      if error = "UnknownKey" then
        some (resumeExchange c own pNode ephemeral { h with
          nodes := h.nodes.insert pNode { n with trustedKey := none }
          keyExchanges := h.keyExchanges.map fun other =>
            if isExchange pNode pChannel other then { other with pExchange := none } else other })
      else some (h.close pChannel)

def handleHello (bReq : Bool) (addr : List CNodeAddress) (pNode pChannel : ℕ) (n : CKadNode)
    (data : SKadData) (h : CKadHandler) : CKadHandler :=
  { h with
    nodes := h.nodes.insert pNode { n with
      addresses := addr.foldl (fun entries address => updateAddress
        { address with auxPort := 0, verifyed := data.authenticated } entries) n.addresses }
    sent := if bReq then (pChannel, Packet.hello false own.addrPool) :: h.sent else h.sent }

/-- The part of `ProcessPacket` for a channel that is not known yet, with its address and
the object that the routing table has for the node, or a new one. -/
def acceptChannel (pChannel pNode nid : ℕ) (address : CNodeAddress) (h : CKadHandler) :
    CKadHandler :=
  let n := (h.nodes.get pNode).getD (CKadNode.new nid)
  if n.id ≠ nid then h
  else
    { h with
      nodes := h.nodes.insert pNode { n with
        addresses := updateAddress { address with auxPort := 0, verifyed := false } n.addresses }
      channels := h.channels.insert pChannel ⟨pNode, false, none, false⟩
      sent := (pChannel, Packet.init own.id) :: h.sent }

/-- The part of `ProcessPacket` for a channel that is known. -/
def handlePacket (ephemeral pChannel : ℕ) (packet : Packet) (n : CKadNode) (data : SKadData)
    (h : CKadHandler) : Option CKadHandler :=
  match packet with
  | .init nid => some (if n.id ≠ nid then h.close pChannel else h)
  | .cryptoRequest request =>
    let result := handleCryptoRequest c own ephemeral request n data
    let h := h.set data.pNode pChannel result.1 result.2.1
    some { h with sent := (pChannel, Packet.cryptoResponse result.2.2) :: h.sent }
  | .cryptoResponse response =>
    handleCryptoResponse c own ephemeral response data.pNode pChannel n data h
  | .hello bReq addr => some (handleHello own bReq addr data.pNode pChannel n data h)

end Handlers

/-- What can happen. -/
inductive Op where
  /-- `ProcessPacket`: a packet comes in on a channel, through a cipher. -/
  | processPacket (pChannel : ℕ) (cipher : Option ℕ) (packet : Packet) (pNode : ℕ)
      (address : CNodeAddress) (ephemeral : ℕ)
  | prepareChannel (pNode pChannel ephemeral : ℕ)
  /-- `Process`, with the channels that are disconnected. -/
  | process (disconnected : ℕ → Bool)

section Runs

variable (c : Crypto) (own : Own)

/-- One step. A packet that does not come through the cipher of its channel cannot be read. -/
def step (h : CKadHandler) : Op → Option CKadHandler
  | .processPacket pChannel cipher packet pNode address ephemeral =>
    match h.channels.get pChannel with
    | none =>
      match packet with
      | .init nid => some (acceptChannel own pChannel pNode nid address h)
      | _ => some h
    | some data =>
      if data.closed ∨ data.cipher ≠ cipher then some h
      else
        match h.nodes.get data.pNode with
        | none => some h
        | some n => handlePacket c own ephemeral pChannel packet n data h
  | .prepareChannel pNode pChannel ephemeral =>
    if (h.channels.get pChannel).isSome ∨ (h.nodes.get pNode).isNone then some h
    else
      some (resumeExchange c own pNode ephemeral { h with
        channels := h.channels.insert pChannel ⟨pNode, false, none, false⟩
        keyExchanges := h.keyExchanges ++ [⟨pNode, pChannel, true, true, none⟩]
        sent := (pChannel, Packet.init own.id) :: h.sent })
  | .process disconnected =>
    some { h with keyExchanges := h.keyExchanges.filter fun key => !disconnected key.pChannel }

/-- A run, until the code crashes. -/
def run (h : CKadHandler) : List Op → Option CKadHandler
  | [] => some h
  | op :: ops => (step c own h op).bind fun h' => run h' ops

end Runs

end NeoLoader.ChannelAuthentication
