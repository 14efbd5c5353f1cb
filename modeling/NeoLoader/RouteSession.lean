import NeoLoader.KeyMapTotals
import NeoLoader.RouteStats

/-!
# Sessions over a route

Two ends of a route exchange signed handshakes, agree on a key, and then send each other
frames with pieces of an encrypted stream. Frames are sent again until they are
acknowledged, and each is taken once. Cryptography is idealised: a frame carries the key
it was signed or hashed with. The fields that relays use to find the way, except for the
target that a handshake names, and the counting of queued bytes are left out.
-/

namespace NeoLoader.RouteSession

open KeyMap KeyMap.OrderedMap RouteStats

/-- Idealised cryptography. -/
structure Crypto where
  /-- `CKadID::MakeID`. -/
  makeID : ℕ → ℕ
  /-- `FinaliseKeyExchange`, of one's own part and the other one. -/
  exchange : ℕ → ℕ → Option ℕ
  /-- The hash of a session and an entity. -/
  iv : ℕ → ℕ → ℕ
  /-- The stream cipher: a key, an initial vector and a position. -/
  encrypt : ℕ → ℕ → ℕ → UInt8 → UInt8
  /-- The inverse of the stream cipher. -/
  decrypt : ℕ → ℕ → ℕ → UInt8 → UInt8

/-- `CSymmetricKey`: a key with independent states for both directions. -/
structure CSymmetricKey where
  /-- The key. -/
  key : ℕ
  /-- The initial vector of what comes in. -/
  inIV : ℕ
  /-- The initial vector of what goes out. -/
  outIV : ℕ
  /-- Number of bytes encrypted. -/
  sent : ℕ
  /-- Number of bytes decrypted. -/
  received : ℕ
  deriving DecidableEq, Repr

/-- What authenticates a frame. -/
inductive Auth where
  /-- Nothing. -/
  | none
  /-- A signature with the private key of a public key. -/
  | signed (key : ℕ)
  /-- A hash with a key. -/
  | hashed (key : ℕ)
  deriving DecidableEq, Repr

/-- `HS`. -/
structure Handshake where
  tid : Option ℕ
  /-- `PK`, if it is a key. -/
  pk : Option ℕ
  /-- `SEC` and in it `EK`. -/
  sec : Option (Option ℕ)
  deriving DecidableEq, Repr

/-- `PKT` in the clear: bytes, or a map with `DATA`. -/
inductive Packet where
  /-- Bytes. -/
  | bytes (data : List UInt8)
  /-- A map. -/
  | map (data : Option (List UInt8))
  deriving DecidableEq, Repr

/-- `PKT`. -/
inductive Sealed where
  /-- Not encrypted. -/
  | plain (packet : Packet)
  /-- Encrypted for a public key. -/
  | asymmetric (key : ℕ) (packet : Packet)
  /-- Encrypted with a key, and the identifier of a frame as initial vector. -/
  | symmetric (key fid : ℕ) (packet : Packet)
  deriving DecidableEq, Repr

/-- What a frame contains. -/
inductive Content where
  | hs (handshake : Handshake)
  /-- `SEG`, with `OFF` and `DATA`. -/
  | seg (offset : ℕ) (data : List UInt8)
  | pkt (packet : Sealed)
  | cs
  /-- None of these. -/
  | other
  deriving DecidableEq, Repr

/-- A frame. -/
structure Frame where
  fid : ℕ
  /-- What it contains. -/
  content : Content
  /-- What authenticates it. -/
  auth : Auth
  deriving DecidableEq, Repr

/-- The acknowledgement of a frame. -/
structure Ack where
  fid : ℕ
  err : Option String
  /-- What authenticates it. -/
  auth : Auth
  deriving DecidableEq, Repr

/-- `CRouteSession::SFrame`. -/
structure SFrame where
  frame : Frame
  sendTime : ℕ
  sendCount : ℕ
  curTTL : ℕ
  bSign : Bool
  uSize : ℕ
  deriving DecidableEq, Repr

structure SFIDTrace where
  count : ℕ
  age : ℕ
  deriving DecidableEq, Repr

inductive EStage where
  /-- Nothing was sent. -/
  | eNone
  /-- A handshake was sent. -/
  | eInit
  /-- The handshakes are done. -/
  | eOpen
  /-- The end was sent. -/
  | eClosing
  /-- The session has ended. -/
  | eClosed
  /-- The session has failed. -/
  | eBroken
  deriving DecidableEq, Repr

/-- The end of a route that a session belongs to. -/
structure Owner where
  /-- `GetID` of the route. -/
  id : ℕ
  /-- `GetEntityID` of the route. -/
  entityID : ℕ
  /-- `GetPublicKey` of the route. -/
  publicKey : ℕ
  segmentSize : ℕ
  maxResend : ℕ
  /-- `RouteTimeout` in milliseconds. -/
  routeTimeout : ℕ
  deriving DecidableEq, Repr

structure CRouteSession where
  entityID : ℕ
  targetID : ℕ
  publicKey : Option ℕ
  sessionID : ℕ
  keyExchange : Option ℕ
  sessionKey : Option ℕ
  cryptoKey : Option CSymmetricKey
  frameQueue : List SFrame
  fidCounter : ℕ
  sendOffset : ℕ
  segmentQueue : OrderedMap ℕ (List UInt8)
  recvOffset : ℕ
  segmentBuffer : OrderedMap ℕ (List UInt8)
  payloads : List Frame
  uLastUpdate : ℕ
  fidTrace : OrderedMap ℕ SFIDTrace
  /-- `m_ConnectionStage`. -/
  stage : EStage
  /-- The statistics of the route. -/
  route : CRouteStats
  processedFrames : ℕ
  /-- The acknowledgements handed to the route, the latest first. -/
  acks : List Ack
  /-- The frames handed to the relays, the latest first. -/
  relayed : List Frame
  /-- What `HandleBytes` got as packets. -/
  packets : List (List UInt8)
  /-- What `HandleBytes` got as a stream. -/
  stream : List UInt8

/-- `CRouteSession::CRouteSession`, with a random counter. -/
def CRouteSession.new (entityID targetID sessionID fidCounter curTick : ℕ) (route : CRouteStats) : CRouteSession where
  entityID := entityID
  targetID := targetID
  publicKey := none
  sessionID := sessionID
  keyExchange := none
  sessionKey := none
  cryptoKey := none
  frameQueue := []
  fidCounter := fidCounter
  sendOffset := 0
  segmentQueue := empty
  recvOffset := 0
  segmentBuffer := empty
  payloads := []
  uLastUpdate := curTick
  fidTrace := empty
  stage := EStage.eNone
  route := route
  processedFrames := 0
  acks := []
  relayed := []
  packets := []
  stream := []

section Sending

variable (c : Crypto) (own : Owner)

/-- Encrypt the next bytes of a stream. -/
def CSymmetricKey.encrypt (k : CSymmetricKey) (data : List UInt8) : List UInt8 × CSymmetricKey :=
  (data.mapIdx fun i b => c.encrypt k.key k.outIV (k.sent + i) b,
    { k with sent := k.sent + data.length })

/-- Decrypt the next bytes of a stream. -/
def CSymmetricKey.decrypt (k : CSymmetricKey) (data : List UInt8) : List UInt8 × CSymmetricKey :=
  (data.mapIdx fun i b => c.decrypt k.key k.inIV (k.received + i) b,
    { k with received := k.received + data.length })

namespace CRouteSession

def queueFrame (content : Content) (bSign : Bool) (s : CRouteSession) : CRouteSession :=
  { s with
    fidCounter := (s.fidCounter + 1) % 2 ^ 64
    frameQueue := s.frameQueue ++ [⟨⟨s.fidCounter, content, Auth.none⟩, 0, 0, 0, bSign, 0⟩] }

def sendHandShake (keyPkt : Option ℕ) (s : CRouteSession) : CRouteSession :=
  queueFrame (Content.hs ⟨if s.targetID ≠ own.id then some own.id else none, some own.publicKey,
    keyPkt.map some⟩) true { s with stage := EStage.eInit }

/-- `InitSession`, with the random part of a key exchange. -/
def initSession (ephemeral curTick : ℕ) (bSendHandShake : Bool) (s : CRouteSession) :
    CRouteSession :=
  let s := { s with uLastUpdate := curTick }
  if bSendHandShake then
    sendHandShake own (some ephemeral) { s with keyExchange := some ephemeral }
  else s

def closeSession (s : CRouteSession) : CRouteSession :=
  queueFrame Content.cs false { s with stage := EStage.eClosing }

def closed (bError : Bool) (s : CRouteSession) : CRouteSession :=
  { s with stage := if bError then EStage.eBroken else EStage.eClosed }

/-- `SetData` of a segment at its offset, over what is there. -/
def setSegment (offset : ℕ) (data : List UInt8) (m : OrderedMap ℕ (List UInt8)) : OrderedMap ℕ (List UInt8) :=
  m.insert offset (data ++ ((m.get offset).getD []).drop data.length)

/-- The next bytes of the stream, encrypted if there is a key. -/
def queueSegment (data : List UInt8) (s : CRouteSession) : CRouteSession :=
  match s.cryptoKey with
  | some k => { s with
      cryptoKey := some (k.encrypt c data).2
      segmentQueue := setSegment s.sendOffset (k.encrypt c data).1 s.segmentQueue
      sendOffset := (s.sendOffset + data.length) % 2 ^ 64 }
  | none => { s with
      segmentQueue := setSegment s.sendOffset data s.segmentQueue
      sendOffset := (s.sendOffset + data.length) % 2 ^ 64 }

/-- The loop that splits bytes into segments. -/
def queueSegments : ℕ → List UInt8 → CRouteSession → CRouteSession
  | 0, _, s => s
  | fuel + 1, data, s =>
    if data.isEmpty then s
    else queueSegments fuel (data.drop own.segmentSize) (queueSegment c (data.take own.segmentSize) s)

/-- What `Encrypt` makes of a packet. -/
def sealPacket (fid : ℕ) (packet : Packet) (s : CRouteSession) : Sealed :=
  match s.sessionKey, s.publicKey with
  | some key, _ => Sealed.symmetric key fid packet
  | none, some key => Sealed.asymmetric key packet
  | none, none => Sealed.plain packet

/-- `QueueBytes`. A packet is put into the frame as bytes. -/
def queueBytes (buffer : List UInt8) (bStream : Bool) (s : CRouteSession) : CRouteSession :=
  if bStream then queueSegments c own buffer.length buffer s
  else queueFrame (Content.pkt (sealPacket s.fidCounter (Packet.bytes buffer) s)) false s

def sendAck (f : Frame) (pError : Option String) (s : CRouteSession) : CRouteSession :=
  { s with acks := ⟨f.fid, pError, (s.sessionKey.map Auth.hashed).getD Auth.none⟩ :: s.acks }

end CRouteSession

end Sending

section Receiving

variable (c : Crypto) (own : Owner)

/-- How the handling of a frame ends. -/
inductive Outcome where
  /-- The frame is acknowledged. -/
  | done
  /-- The frame is refused. -/
  | failed (error : String)
  /-- The frame is put off. -/
  | deferred
  /-- An exception leaves the session. -/
  | thrown
  deriving DecidableEq, Repr

namespace CRouteSession

/-- Hand the next bytes of the stream over, decrypted if there is a key. -/
def handleStream (data : List UInt8) (s : CRouteSession) : CRouteSession :=
  match s.cryptoKey with
  | some k => { s with
      cryptoKey := some (k.decrypt c data).2
      stream := s.stream ++ (k.decrypt c data).1
      recvOffset := (s.recvOffset + data.length) % 2 ^ 64 }
  | none => { s with
      stream := s.stream ++ data
      recvOffset := (s.recvOffset + data.length) % 2 ^ 64 }

/-- The loop of `ReassemblyStream` over the segments. -/
def drain : List (ℕ × List UInt8) → CRouteSession → List (ℕ × List UInt8) × CRouteSession
  | [], s => ([], s)
  | e :: es, s =>
    if e.1 > s.recvOffset then (e :: es, s)
    else if (e.1 + e.2.length) % 2 ^ 64 ≤ s.recvOffset then drain es s
    else drain es (handleStream c (e.2.drop (s.recvOffset - e.1)) s)

def reassemblyStream (offset : ℕ) (data : List UInt8) (s : CRouteSession) : CRouteSession :=
  let buffer := setSegment offset data s.segmentBuffer
  let result := drain c buffer.entries s
  { result.2 with segmentBuffer := buffer.filter fun k _ => result.1.any fun e => e.1 = k }

/-- `Decrypt` of a packet, if it succeeds. -/
def openPacket (fid : ℕ) (s : CRouteSession) : Sealed → Option Packet
  | .plain packet => some packet
  | .asymmetric key packet => if key = own.publicKey then some packet else none
  | .symmetric key fid' packet =>
    if s.sessionKey = some key ∧ fid' = fid then some packet else none

/-- `HandlePayload`. Reading `DATA` throws where it is not there. -/
def handlePayload (f : Frame) (s : CRouteSession) : CRouteSession × Outcome :=
  match f.content with
  | .pkt packet =>
    match openPacket own f.fid s packet with
    | none => (s, Outcome.failed "CryptoError")
    | some (.map (some data)) => ({ s with packets := s.packets ++ [data] }, Outcome.done)
    | some _ => (s, Outcome.thrown)
  | .seg offset data => (reassemblyStream c offset data s, Outcome.done)
  | _ => (s, Outcome.done)

/-- The part of `ProcessFrame` that takes the key of the other end from a handshake. -/
def learnKey (f : Frame) (s : CRouteSession) : CRouteSession × Option String :=
  match f.content, s.publicKey with
  | .hs handshake, none =>
    match handshake.pk with
    | none => (s, some "InvalidKey")
    | some key =>
      if c.makeID key = s.entityID then ({ s with publicKey := some key }, none)
      else (s, some "InvalidKey")
  | _, _ => (s, none)

/-- The part of `ProcessFrame` that checks the signature or the hash. -/
def authenticate (f : Frame) (s : CRouteSession) : Option String :=
  match f.auth with
  | .signed key =>
    match s.publicKey with
    | none => some "UnknownKey"
    | some publicKey => if key = publicKey then none else some "InvalidSign"
  | auth =>
    match s.sessionKey with
    | none => none
    | some key => if auth = Auth.hashed key then none else some "InvalidSign"

/-- The key exchange with what a handshake brings, and what to answer. -/
def exchangeKeys (ephemeral : ℕ) (ek : Option ℕ) (s : CRouteSession) : Option (ℕ × Option ℕ) :=
  if s.sessionKey.isSome then none
  else
    match ek, s.keyExchange with
    | none, _ => none
    | some ek, none => (c.exchange ephemeral ek).map fun key => (key, some ephemeral)
    | some ek, some own => (c.exchange own ek).map fun key => (key, none)

/-- The part of `ProcessFrame` for a handshake. -/
def handleHandshake (ephemeral : ℕ) (f : Frame) (handshake : Handshake) (s : CRouteSession) : CRouteSession × Outcome :=
  match f.auth with
  | .signed _ =>
    let s := { s with targetID := handshake.tid.getD s.targetID }
    match handshake.sec with
    | none => (s, Outcome.failed "CryptoRequired")
    | some ek =>
      match exchangeKeys c ephemeral ek s with
      | none => (s.closed true, Outcome.failed "CryptoError")
      | some (key, keyPkt) =>
        let s := { s with
          keyExchange := none
          sessionKey := some key
          cryptoKey := some ⟨key, c.iv s.sessionID own.entityID, c.iv s.sessionID s.entityID, 0, 0⟩ }
        let s := if s.stage = EStage.eNone then sendHandShake own keyPkt s else s
        ({ s with stage := EStage.eOpen }, Outcome.done)
  | _ => (s, Outcome.failed "MissingSign")

/-- The part of `ProcessFrame` behind the checks. -/
def handleContent (busy : Bool) (ephemeral : ℕ) (f : Frame) (s : CRouteSession) : CRouteSession × Outcome :=
  match f.content with
  | .hs handshake => handleHandshake c own ephemeral f handshake s
  | content =>
    if s.stage = EStage.eBroken then (s, Outcome.failed "Broken")
    else if s.stage ≠ EStage.eOpen ∧ s.stage ≠ EStage.eClosing then
      (s, Outcome.failed "NotConnected")
    else if content = Content.cs then
      ((if s.stage ≠ EStage.eClosing then s.closeSession else s).closed false, Outcome.done)
    else if busy then ({ s with payloads := s.payloads ++ [f] }, Outcome.deferred)
    else handlePayload c own f s

/-- A frame was seen before. -/
def seen (fid : ℕ) (s : CRouteSession) : Bool :=
  (s.fidTrace.get fid).any fun trace => trace.count ≠ 0

/-- Count a frame in `m_FIDTrace`. -/
def traceFrame (curTick fid : ℕ) (s : CRouteSession) : CRouteSession :=
  let trace := (s.fidTrace.get fid).getD ⟨0, curTick⟩
  { s with fidTrace := s.fidTrace.insert fid { trace with count := trace.count + 1 } }

/-- What is acknowledged after a frame was handled. -/
def finishFrame (f : Frame) : CRouteSession × Outcome → CRouteSession
  | (s, .done) => s.sendAck f none
  | (s, .failed error) => s.sendAck f (some error)
  | (s, .deferred) => s
  | (s, .thrown) => s

/-- Count a frame that was not seen before. -/
def countFrame (s : CRouteSession) : CRouteSession :=
  { s with processedFrames := s.processedFrames + 1 }

/-- The part of `ProcessFrame` for a frame that was not seen before. -/
def acceptFrame (busy : Bool) (ephemeral curTick : ℕ) (f : Frame) (s : CRouteSession) : CRouteSession × Outcome :=
  match learnKey c f s with
  | (s, some error) => (s, Outcome.failed error)
  | (s, none) =>
    match authenticate f s with
    | some error => (s, Outcome.failed error)
    | none => handleContent c own busy ephemeral f { s with uLastUpdate := curTick }

def processFrame (busy : Bool) (ephemeral curTick : ℕ) (f : Frame) (s : CRouteSession) :
    CRouteSession :=
  let traced := s.traceFrame curTick f.fid
  if s.seen f.fid then traced
  else finishFrame f (acceptFrame c own busy ephemeral curTick f traced.countFrame)

/-- The loop of `AckFrame`: the first frame with the identifier is not sent any more. -/
def ackQueue (size : Frame → ℕ) (curTick fid : ℕ) (s : CRouteSession) : CRouteSession :=
  match s.frameQueue.span fun f => f.frame.fid ≠ fid with
  | (_, []) => s
  | (before, f :: after) =>
    { s with
      route :=
        if f.sendTime ≠ 0 then
          s.route.frameRelayed.addSample (curTick - f.sendTime) (size f.frame)
        else s.route
      frameQueue := before ++ after }

/-- `AckFrame`, with the result. -/
def ackFrame (size : Frame → ℕ) (curTick : ℕ) (ack : Ack) (s : CRouteSession) : Bool × CRouteSession :=
  if (s.sessionKey.any fun key => ack.auth ≠ Auth.hashed key) = true then (false, s)
  else
    let s := { s with uLastUpdate := curTick }
    match ack.err with
    | some error => (true, if error ≠ "InvalidSign" then s.closed true else s)
    | none => (true, s.ackQueue size curTick ack.fid)

end CRouteSession

end Receiving

section Process

variable (c : Crypto) (own : Owner)

/-- What `Process` is called with: the flags of the tick, what the relays take, the sizes
of frames, and the number of payloads before the session is busy. -/
structure Turn where
  /-- `EPerSec`. -/
  second : Bool
  /-- `E10PerSec`. -/
  tenth : Bool
  /-- `EPer10Sec`. -/
  tenSeconds : Bool
  /-- `RelayUp` takes a frame. -/
  relayUp : ℕ → Bool
  /-- `GetSize` of a frame. -/
  size : Frame → ℕ
  /-- Payloads before `IsBussy`. -/
  ready : ℕ

/-- The state of the loop over the frames. -/
structure Loop where
  /-- The statistics of the route. -/
  route : CRouteStats
  sizeOnRoute : ℕ
  /-- The frames handed to the relays. -/
  relayed : List Frame
  /-- A frame was sent too often. -/
  broken : Bool

namespace CRouteSession

/-- Make a frame of a segment. -/
def frameSegment (e : ℕ × List UInt8) (s : CRouteSession) : CRouteSession :=
  queueFrame (Content.seg e.1 e.2) false { s with segmentQueue := s.segmentQueue.erase e.1 }

/-- The loop that makes frames of segments. -/
def frameSegments (limit : ℕ) : List (ℕ × List UInt8) → CRouteSession → CRouteSession
  | [], s => s
  | e :: es, s =>
    if s.frameQueue.length ≥ limit then s else frameSegments limit es (frameSegment e s)

/-- The part of `Process` that makes frames. -/
def makeFrames (s : CRouteSession) : CRouteSession :=
  if s.stage = EStage.eOpen then
    frameSegments (s.route.uCongestionWindow * 2) s.segmentQueue.entries s
  else s

/-- `UpdateControl`, each tenth of a second. -/
def tickControl (tenth : Bool) (s : CRouteSession) : CRouteSession :=
  { s with route := if tenth then s.route.updateControl else s.route }

/-- What authenticates a frame when it is sent. -/
def authOf (sessionKey : Option ℕ) (f : SFrame) : Auth :=
  if f.bSign then Auth.signed own.publicKey else (sessionKey.map Auth.hashed).getD Auth.none

/-- Send a frame, if the window has room. -/
def sendFrame (turn : Turn) (curTick : ℕ) (sessionKey : Option ℕ) (f : SFrame) (l : Loop) : SFrame × Loop :=
  if l.route.isWindowFull then (f, l)
  else
    let frame := { f.frame with auth := authOf own sessionKey f }
    let sizeOnRoute := l.sizeOnRoute + turn.size frame
    let f := { f with
      uSize := turn.size frame
      curTTL := l.route.timeOutAverage * 2 % 2 ^ 32 * (sizeOnRoute / 1024 + 1) * (f.sendCount + 1) % 2 ^ 64 }
    if turn.relayUp f.frame.fid then
      ({ f with sendTime := curTick, sendCount := (f.sendCount + 1) % 2 ^ 16 },
        { l with
          route := l.route.framePending
          sizeOnRoute := sizeOnRoute
          relayed := frame :: l.relayed })
    else (f, { l with sizeOnRoute := sizeOnRoute })

/-- One round of the loop over the frames. -/
def visitFrame (turn : Turn) (curTick : ℕ) (sessionKey : Option ℕ) (f : SFrame) (l : Loop) : SFrame × Loop :=
  if l.broken then (f, l)
  else if f.sendTime ≠ 0 then
    if curTick - f.sendTime < f.curTTL * 2 % 2 ^ 64 then
      (f, { l with sizeOnRoute := l.sizeOnRoute + f.uSize })
    else
      let f := { f with sendTime := 0 }
      let l := { l with route := l.route.frameDropped }
      if f.sendCount > max own.maxResend l.route.uCongestionWindow then (f, { l with broken := true })
      else sendFrame own turn curTick sessionKey f l
  else sendFrame own turn curTick sessionKey f l

/-- The loop over the frames. -/
def visitFrames (turn : Turn) (curTick : ℕ) (sessionKey : Option ℕ) : List SFrame → Loop → List SFrame × Loop
  | [], l => ([], l)
  | f :: fs, l =>
    let result := visitFrame own turn curTick sessionKey f l
    let rest := visitFrames turn curTick sessionKey fs result.2
    (result.1 :: rest.1, rest.2)

/-- The loop over the payloads. An exception leaves it, and `Process`. -/
def handlePayloads : ℕ → CRouteSession → CRouteSession × Bool
  | 0, s => (s, true)
  | n + 1, s =>
    match s.payloads with
    | [] => (s, true)
    | f :: payloads =>
      match handlePayload c own f s with
      | (s, .done) => handlePayloads n (sendAck f none { s with payloads := payloads })
      | (s, _) => (s, false)

/-- `Process` does not go on with the session. -/
def isOver (turn : Turn) (curTick : ℕ) (s : CRouteSession) : Bool :=
  s.stage = EStage.eNone || s.stage = EStage.eBroken || (s.stage = EStage.eClosed && s.frameQueue.isEmpty) ||
    (turn.second = false && curTick - s.uLastUpdate > own.routeTimeout)

/-- The part of `Process` that sends frames. -/
def sendFrames (turn : Turn) (curTick : ℕ) (s : CRouteSession) : CRouteSession :=
  let result := visitFrames own turn curTick s.sessionKey s.frameQueue ⟨s.route, 0, s.relayed, false⟩
  { s with
    frameQueue := result.1
    route := result.2.route
    relayed := result.2.relayed
    stage := if result.2.broken then EStage.eBroken else s.stage }

/-- The part of `Process` that forgets old frames. -/
def purgeTrace (turn : Turn) (curTick : ℕ) (s : CRouteSession) : CRouteSession :=
  if turn.tenSeconds ∧ s.fidTrace.size > 1000 then
    { s with fidTrace := s.fidTrace.filter fun _ trace => ¬ trace.age + 300000 < curTick }
  else s

/-- `Process`. Where it returns false, the session is destroyed. -/
def process (turn : Turn) (curTick : ℕ) (s : CRouteSession) : Option CRouteSession :=
  if isOver own turn curTick s then none
  else
    let result := handlePayloads c own turn.ready
      (sendFrames own turn curTick (tickControl turn.tenth s.makeFrames))
    some (if result.2 then purgeTrace turn curTick result.1 else result.1)

end CRouteSession

end Process

section Runs

variable (c : Crypto) (own : Owner)

/-- What is done with a session. -/
inductive Op where
  | initSession (ephemeral curTick : ℕ) (bSendHandShake : Bool)
  | closeSession
  | queueBytes (buffer : List UInt8) (bStream : Bool)
  | processFrame (busy : Bool) (ephemeral curTick : ℕ) (f : Frame)
  | ackFrame (size : Frame → ℕ) (curTick : ℕ) (ack : Ack)
  | process (turn : Turn) (curTick : ℕ)

namespace CRouteSession

/-- One step of a session. -/
def step (s : CRouteSession) : Op → Option CRouteSession
  | .initSession ephemeral curTick bSendHandShake =>
    some (s.initSession own ephemeral curTick bSendHandShake)
  | .closeSession => some s.closeSession
  | .queueBytes buffer bStream => some (s.queueBytes c own buffer bStream)
  | .processFrame busy ephemeral curTick f => some (s.processFrame c own busy ephemeral curTick f)
  | .ackFrame size curTick ack => some (s.ackFrame size curTick ack).2
  | .process turn curTick => s.process c own turn curTick

/-- A run of a session, until it is destroyed. -/
def run (s : CRouteSession) : List Op → Option CRouteSession
  | [] => some s
  | op :: ops => (s.step c own op).bind fun s' => s'.run ops

end CRouteSession

end Runs

end NeoLoader.RouteSession
