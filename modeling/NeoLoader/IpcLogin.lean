import Mathlib.Data.List.Infix
import NeoLoader.KeyMapTotals

/-!
# Logins of the interface sockets

A server keeps a socket for each client. A remote client has to log in before its requests are
admitted, a local one has not. The same class is the socket of a client, and its dispatcher handles
both halves of the login and of the key exchange. The framing of the messages and the ciphers are
left out: a message is what `Receive` gets.
-/

namespace NeoLoader.IpcLogin

open KeyMap OrderedMap

/-- A message on its way. -/
structure Message (V : Type*) where
  /-- The first word of the header. -/
  type : String
  /-- The second word of the header. -/
  name : String
  /-- The content. -/
  data : V
  /-- The number in the header. -/
  number : ℤ
  deriving DecidableEq, Repr

/-- What a socket does to the outside. -/
inductive Output (V : Type*)
  /-- A message is sent. -/
  | sent (message : Message V)
  /-- The signal `Request`. -/
  | request (name : String) (data : V) (number : ℤ)
  /-- The signal `Response`. -/
  | response (name : String) (data : V) (number : ℤ)
  /-- The signal `Event`. -/
  | event (name : String) (data : V) (number : ℤ)
  /-- The result of a request of its own is there. -/
  | result (data : V)
  /-- The signal `Connected`. -/
  | connected
  /-- The connection is being closed. -/
  | disconnecting
  deriving DecidableEq, Repr

/-- What the sockets ask their surroundings for. The number stands for what random numbers and the
rest of the program make of a call. -/
structure Env (V : Type*) where
  /-- The text in an entry of a map. -/
  text : V → String → String
  /-- A map of texts. -/
  map : List (String × String) → V
  /-- No value. -/
  invalid : V
  /-- A text. -/
  ofText : String → V
  /-- The answer to the key of a client. -/
  keyResponse : ℕ → V → V
  /-- Whether `FinaliseKeyExchange` finds a key. -/
  finaliseKeyExchange : ℕ → V → Bool
  /-- `CheckLogin` with a user and a password, a token or no text. -/
  checkLogin : ℕ → String → String → String
  processRequest : ℕ → String → V → V

structure CIPCSocket where
  m_bConnected : Bool
  m_LoginToken : String
  m_User : String
  m_Password : String
  /-- Whether `m_Exchange` is there. -/
  m_Exchange : Bool
  /-- Whether `m_CryptoKey` is there. -/
  m_CryptoKey : Bool
  m_Counter : ℤ
  /-- Whether `m_pResult` is there. -/
  m_pResult : Bool
  deriving DecidableEq, Repr

/-- The socket of a connection that comes in. -/
def CIPCSocket.incomming (bConnected : Bool) : CIPCSocket :=
  ⟨bConnected, "", "", "", false, false, 0, false⟩

section Handlers

variable {V : Type*} (env : Env V)

def disconnect (error : String) : List (Output V) :=
  if error = "" then [.disconnecting]
  else [.sent ⟨"Error", "", env.ofText error, 0⟩, .disconnecting]

def sendResponse (name : String) (data : V) (number : ℤ) (socket : CIPCSocket) : List (Output V) :=
  if socket.m_bConnected then [.sent ⟨"Response", name, data, number⟩] else []

def sendEvent (name : String) (data : V) (socket : CIPCSocket) : CIPCSocket × List (Output V) :=
  if socket.m_bConnected then
    ({ socket with m_Counter := socket.m_Counter + 1 }, [.sent ⟨"Event", name, data, socket.m_Counter + 1⟩])
  else (socket, [])

/-- `SendRequest`, which waits for the result. -/
def sendRequest (name : String) (data : V) (socket : CIPCSocket) : CIPCSocket × List (Output V) :=
  if socket.m_bConnected then
    ({ socket with m_Counter := socket.m_Counter + 1, m_pResult := true },
      [.sent ⟨"Request", name, data, socket.m_Counter + 1⟩])
  else (socket, [])

def sendLoginReq (socket : CIPCSocket) : List (Output V) :=
  [.sent ⟨"Login", "Request", env.map [("User", socket.m_User), ("Password", socket.m_Password)], 0⟩]

/-- `ProcessEncryption`, with its result. -/
def processEncryption (random : ℕ) (data : V) (socket : CIPCSocket) : Bool × CIPCSocket × List (Output V) :=
  let answer :=
    if socket.m_Exchange then [] else [.sent ⟨"Secure", "Response", env.keyResponse random data, 0⟩]
  let bRet := env.finaliseKeyExchange random data
  (bRet, { socket with m_Exchange := false, m_CryptoKey := socket.m_CryptoKey || bRet }, answer)

/-- The token for a login, or no text. -/
def loginToken (random : ℕ) (data : V) : String :=
  env.checkLogin random (env.text data "User") (env.text data "Password")

/-- `ProcessLoginReq` of a socket of the server. -/
def processLoginReq (random : ℕ) (data : V) (socket : CIPCSocket) : CIPCSocket × List (Output V) :=
  let token := loginToken env random data
  if token = "" then
    ({ socket with m_LoginToken := "" }, [.sent ⟨"Login", "Error", env.invalid, 0⟩])
  else
    ({ socket with m_LoginToken := token, m_bConnected := true },
      [.sent ⟨"Login", "Response", env.map [("Token", token)], 0⟩])

def processLoginRes (data : V) (socket : CIPCSocket) : CIPCSocket × List (Output V) :=
  ({ socket with m_LoginToken := env.text data "Token", m_bConnected := true }, [.connected])

/-- The branch of `Receive` for `Secure`. -/
def receiveSecure (random : ℕ) (message : Message V) (socket : CIPCSocket) : CIPCSocket × List (Output V) :=
  if message.name = "Error" then (socket, disconnect env "")
  else
    match processEncryption env random message.data socket with
    | (true, socket, answer) =>
      (socket, answer ++ if message.name = "Response" then sendLoginReq env socket else [])
    | (false, socket, answer) =>
      (socket, answer ++ if message.name = "Response" then disconnect env ""
        else [.sent ⟨"Secure", "Error", env.invalid, 0⟩])

/-- The branch of `Receive` for `Login`. -/
def receiveLogin (random : ℕ) (message : Message V) (socket : CIPCSocket) : CIPCSocket × List (Output V) :=
  if message.name = "Error" then (socket, disconnect env "")
  else if message.name = "Request" then processLoginReq env random message.data socket
  else processLoginRes env message.data socket

/-- The branch of `Receive` for what only a client that is logged in may send. The signal `Request`
ends in `CIPCServer::OnRequest`, which answers at once. -/
def receiveOther (random : ℕ) (message : Message V) (socket : CIPCSocket) : CIPCSocket × List (Output V) :=
  let ⟨type, name, data, number⟩ := message
  if type = "Request" then
    (socket, .request name data number :: sendResponse name (env.processRequest random name data) number socket)
  else if type = "Response" then
    if socket.m_pResult ∧ number = socket.m_Counter then
      ({ socket with m_pResult := false }, [.result data])
    else (socket, [.response name data number])
  else if type = "Event" then (socket, [.event name data number])
  else (socket, [])

/-- `CIPCSocket::Receive`. -/
def receive (random : ℕ) (message : Message V) (socket : CIPCSocket) : CIPCSocket × List (Output V) :=
  if message.type = "Secure" then receiveSecure env random message socket
  else if message.type = "Login" then receiveLogin env random message socket
  else if socket.m_bConnected = false then (socket, disconnect env "Unauthorized")
  else receiveOther env random message socket

end Handlers

/-- `CIPCServer`, with what has happened so far. -/
structure CIPCServer (V : Type*) where
  m_Clients : OrderedMap ℕ CIPCSocket
  /-- Not in the source: the number of the next client. -/
  count : ℕ
  /-- Not in the source: the remote clients. -/
  remotes : List ℕ
  /-- Not in the source: the clients that presented a user and a password that were accepted. -/
  presented : List ℕ
  /-- Not in the source: the tokens that were handed out for them. -/
  granted : List String
  /-- Not in the source: what the sockets did. -/
  log : List (ℕ × Output V)

/-- A server without clients. -/
def CIPCServer.new {V : Type*} : CIPCServer V := ⟨empty, 0, [], [], [], []⟩

/-- What happens at the server. -/
inductive Op (V : Type*)
  /-- `OnLocalConnection`. -/
  | localConnection
  /-- `OnRemoteConnection`. -/
  | remoteConnection
  /-- A socket receives a message. -/
  | receive (client random : ℕ) (message : Message V)
  /-- `SendEvent` of a `PushNotification`, at one of the clients. -/
  | pushEvent (client : ℕ) (name : String) (data : V)
  /-- A request of the server. -/
  | sendRequest (client : ℕ) (name : String) (data : V)
  /-- `OnDisconnected`. -/
  | disconnected (client : ℕ)

section Server

variable {V : Type*} (env : Env V)

def addSocket (bConnected : Bool) (server : CIPCServer V) : CIPCServer V :=
  { server with
    m_Clients := server.m_Clients.insert server.count (.incomming bConnected)
    count := server.count + 1 }

/-- A socket does something. -/
def onSocket (client : ℕ) (act : CIPCSocket → CIPCSocket × List (Output V)) (server : CIPCServer V) :
    CIPCServer V :=
  match server.m_Clients.get client with
  | none => server
  | some socket =>
    { server with
      m_Clients := server.m_Clients.insert client (act socket).1
      log := server.log ++ (act socket).2.map (Prod.mk client) }

/-- The token that is handed out for a message, or no text. -/
def Message.granted (random : ℕ) (message : Message V) : String :=
  if message.type = "Login" ∧ message.name = "Request" then loginToken env random message.data else ""

/-- Note down a login that is accepted. -/
def noteLogin (client random : ℕ) (message : Message V) (server : CIPCServer V) : CIPCServer V :=
  if (server.m_Clients.get client).isSome ∧ message.granted env random ≠ "" then
    { server with
      presented := client :: server.presented
      granted := message.granted env random :: server.granted }
  else server

/-- The next state of the server. -/
def step (server : CIPCServer V) : Op V → CIPCServer V
  | .localConnection => addSocket true server
  | .remoteConnection => { addSocket false server with remotes := server.count :: server.remotes }
  | .receive client random message =>
    onSocket client (receive env random message) (noteLogin env client random message server)
  | .pushEvent client name data => onSocket client (sendEvent name data) server
  | .sendRequest client name data => onSocket client (sendRequest name data) server
  | .disconnected client => { server with m_Clients := server.m_Clients.erase client }

/-- The state of the server after some operations. -/
def run (server : CIPCServer V) (ops : List (Op V)) : CIPCServer V := ops.foldl (step env) server

def hasLoginToken (server : CIPCServer V) (token : String) : Bool :=
  server.m_Clients.entries.any fun client => client.2.m_LoginToken = token

/-- Only a client that is logged in has a socket do this: it emits a message, or it answers one. -/
def Output.Admitted : Output V → Prop
  | .request _ _ _ => True
  | .response _ _ _ => True
  | .event _ _ _ => True
  | .sent message => message.type = "Response"
  | _ => False

/-- A remote client that presented no user and password that were accepted. -/
def Stranger (server : CIPCServer V) (client : ℕ) : Prop :=
  client ∈ server.remotes ∧ client ∉ server.presented

/-- The sockets of strangers are not connected and admit nothing, and the token is one of a login. -/
structure Safe (token : String) (server : CIPCServer V) : Prop where
  /-- Not connected. -/
  closed : ∀ client socket, Stranger server client → server.m_Clients.get client = some socket →
    socket.m_bConnected = false
  /-- Nothing is admitted. -/
  silent : ∀ client output, Stranger server client → (client, output) ∈ server.log → ¬output.Admitted
  /-- The token was handed out. -/
  held : hasLoginToken server token = true → token ∈ server.granted

/-- A message that only a server should send: an answer to a login. -/
def Message.IsLoginRes (message : Message V) : Prop :=
  message.type = "Login" ∧ message.name ≠ "Error" ∧ message.name ≠ "Request"

/-- The condition on a step: only a client that is no stranger sends an answer to a login, with a
token other than this one or one that was handed out, and if this token is empty no client connects. -/
def Meets (token : String) (server : CIPCServer V) : Op V → Prop
  | .localConnection => token ≠ ""
  | .remoteConnection => token ≠ ""
  | .receive client _ message =>
    message.IsLoginRes → (server.m_Clients.get client).isSome →
      ¬Stranger server client ∧ (env.text message.data "Token" = token → token ∈ server.granted)
  | _ => True

/-- The condition on all steps of a run. -/
def RunMeets (token : String) : CIPCServer V → List (Op V) → Prop
  | _, [] => True
  | server, op :: ops => Meets env token server op ∧ RunMeets token (step env server op) ops

end Server

/-! ### One message -/

section Messages

variable {V : Type*} {env : Env V}

/-- Nothing is admitted. -/
def Quiet (outputs : List (Output V)) : Prop := ∀ output ∈ outputs, ¬output.Admitted

theorem quiet_nil : Quiet ([] : List (Output V)) := fun _ hm => absurd hm List.not_mem_nil

theorem quiet_cons {output : Output V} {outputs : List (Output V)} (h : ¬output.Admitted)
    (hrest : Quiet outputs) : Quiet (output :: outputs) := by
  intro other hm
  rcases List.mem_cons.mp hm with rfl | hm
  exacts [h, hrest other hm]

variable {message : Message V}

theorem quiet_sent (h : message.type ≠ "Response") : Quiet [.sent message] :=
  quiet_cons h quiet_nil

theorem Quiet.append {outputs more : List (Output V)} (h : Quiet outputs) (hmore : Quiet more) :
    Quiet (outputs ++ more) := by
  intro output hm
  rcases List.mem_append.mp hm with hm | hm
  exacts [h output hm, hmore output hm]

theorem quiet_disconnect (env : Env V) (error : String) : Quiet (disconnect env error) := by
  have hclose : Quiet [(.disconnecting : Output V)] := quiet_cons not_false quiet_nil
  unfold disconnect
  split_ifs
  · exact hclose
  · exact quiet_cons (by simp [Output.Admitted]) hclose

/-- The key exchange changes neither the login nor the token, and admits nothing. -/
theorem receiveSecure_spec (env : Env V) (random : ℕ) (message : Message V) (socket : CIPCSocket) :
    (receiveSecure env random message socket).1.m_bConnected = socket.m_bConnected ∧
      (receiveSecure env random message socket).1.m_LoginToken = socket.m_LoginToken ∧
      Quiet (receiveSecure env random message socket).2 := by
  have hanswer : Quiet (processEncryption env random message.data socket).2.2 := by
    unfold processEncryption
    dsimp only
    split_ifs
    · exact quiet_nil
    · exact quiet_sent (by simp)
  unfold receiveSecure
  by_cases herror : message.name = "Error"
  · rw [if_pos herror]
    exact ⟨rfl, rfl, quiet_disconnect env ""⟩
  rw [if_neg herror]
  unfold processEncryption at hanswer ⊢
  dsimp only at hanswer ⊢
  cases env.finaliseKeyExchange random message.data with
  | true =>
    refine ⟨rfl, rfl, hanswer.append ?_⟩
    by_cases hname : message.name = "Response"
    · rw [if_pos hname]
      exact quiet_sent (by simp)
    · rw [if_neg hname]
      exact quiet_nil
  | false =>
    refine ⟨rfl, rfl, hanswer.append ?_⟩
    by_cases hname : message.name = "Response"
    · rw [if_pos hname]
      exact quiet_disconnect env _
    · rw [if_neg hname]
      exact quiet_sent (by simp)

/-- A message that neither answers a login nor is an accepted one: the socket stays as connected as it
was, keeps its token or loses it, and admits something only if it is connected. -/
theorem receive_other {random : ℕ} (hres : ¬message.IsLoginRes)
    (hreq : message.granted env random = "") (socket : CIPCSocket) :
    (receive env random message socket).1.m_bConnected = socket.m_bConnected ∧
      ((receive env random message socket).1.m_LoginToken = socket.m_LoginToken ∨
        (receive env random message socket).1.m_LoginToken = "") ∧
      (socket.m_bConnected = false → Quiet (receive env random message socket).2) := by
  unfold receive
  split_ifs with hsecure hlogin hclosed
  · obtain ⟨hconnected, htoken, hquiet⟩ := receiveSecure_spec env random message socket
    exact ⟨hconnected, Or.inl htoken, fun _ => hquiet⟩
  · unfold receiveLogin
    split_ifs with herror hname
    · exact ⟨rfl, Or.inl rfl, fun _ => quiet_disconnect env ""⟩
    · unfold Message.granted at hreq
      rw [if_pos ⟨hlogin, hname⟩] at hreq
      unfold processLoginReq
      dsimp only
      rw [if_pos hreq]
      exact ⟨rfl, Or.inr rfl, fun _ => quiet_sent (by simp)⟩
    · exact absurd ⟨hlogin, herror, hname⟩ hres
  · exact ⟨rfl, Or.inl rfl, fun _ => quiet_disconnect env "Unauthorized"⟩
  · refine ⟨?_, Or.inl ?_, fun hfalse => absurd hfalse hclosed⟩
    all_goals
      unfold receiveOther
      dsimp only
      split_ifs <;> rfl

/-- A login that is accepted. -/
theorem receive_granted {random : ℕ} (hreq : message.granted env random ≠ "") (socket : CIPCSocket) :
    (receive env random message socket).1.m_LoginToken = message.granted env random := by
  have hname : message.type = "Login" ∧ message.name = "Request" := by
    by_contra hne
    exact hreq (if_neg hne)
  unfold Message.granted at hreq ⊢
  rw [if_pos hname] at hreq ⊢
  unfold receive receiveLogin processLoginReq
  rw [if_neg (by simp [hname.1]), if_pos hname.1, if_neg (by simp [hname.2]), if_pos hname.2]
  dsimp only
  rw [if_neg hreq]

theorem receive_loginRes (env : Env V) (hres : message.IsLoginRes) (random : ℕ) (socket : CIPCSocket) :
    (receive env random message socket).1.m_bConnected = true ∧
      (receive env random message socket).1.m_LoginToken = env.text message.data "Token" := by
  obtain ⟨htype, herror, hreq⟩ := hres
  unfold receive receiveLogin
  rw [if_neg (by simp [htype]), if_pos htype, if_neg herror, if_neg hreq]
  exact ⟨rfl, rfl⟩

theorem granted_of_isLoginRes (hres : message.IsLoginRes) (random : ℕ) : message.granted env random = "" :=
  if_neg fun hboth => hres.2.2 hboth.2

end Messages

/-! ### Runs -/

section Runs

variable {V : Type*} {env : Env V} {token : String} {server : CIPCServer V}

theorem hasLoginToken_iff : hasLoginToken server token = true ↔
    ∃ client socket, server.m_Clients.get client = some socket ∧ socket.m_LoginToken = token := by
  unfold hasLoginToken
  rw [List.any_eq_true]
  constructor
  · rintro ⟨entry, hm, htoken⟩
    exact ⟨entry.1, entry.2, get_eq_some.mpr hm, of_decide_eq_true htoken⟩
  · rintro ⟨client, socket, hget, htoken⟩
    exact ⟨(client, socket), get_eq_some.mp hget, decide_eq_true htoken⟩

/-- The invariant of a run whose steps meet the condition. -/
structure Inv (token : String) (server : CIPCServer V) : Prop where
  /-- Strangers are not connected. -/
  closed : ∀ client socket, Stranger server client → server.m_Clients.get client = some socket →
    socket.m_bConnected = false
  /-- For strangers nothing is admitted. -/
  silent : ∀ client output, Stranger server client → (client, output) ∈ server.log → ¬output.Admitted
  /-- A client that has the token got it. -/
  held : ∀ client socket, server.m_Clients.get client = some socket → socket.m_LoginToken = token →
    token ∈ server.granted
  /-- While there are clients the token is a text. -/
  named : ∀ client socket, server.m_Clients.get client = some socket → token ≠ ""
  /-- The numbers of the clients are used up. -/
  clients : ∀ client socket, server.m_Clients.get client = some socket → client < server.count
  /-- Those of the remote ones too. -/
  remotes : ∀ client ∈ server.remotes, client < server.count
  /-- Outputs have the number of a client. -/
  log : ∀ client output, (client, output) ∈ server.log → client < server.count

theorem Inv.safe (h : Inv token server) : Safe token server where
  closed := h.closed
  silent := h.silent
  held := fun hhas => by
    obtain ⟨client, socket, hget, htoken⟩ := hasLoginToken_iff.mp hhas
    exact h.held client socket hget htoken

/-- Without clients. -/
theorem inv_new : Inv token (CIPCServer.new : CIPCServer V) := by
  have hget : ∀ client, (CIPCServer.new : CIPCServer V).m_Clients.get client = none := fun _ => rfl
  constructor
  · intro client socket hstranger
    exact absurd hstranger.1 List.not_mem_nil
  · intro client output hstranger
    exact absurd hstranger.1 List.not_mem_nil
  · intro client socket hsome
    exact absurd (hget client ▸ hsome) (by simp)
  · intro client socket hsome
    exact absurd (hget client ▸ hsome) (by simp)
  · intro client socket hsome
    exact absurd (hget client ▸ hsome) (by simp)
  · intro client hm
    exact absurd hm List.not_mem_nil
  · intro client output hm
    exact absurd hm List.not_mem_nil

/-- What a new client changes. -/
theorem get_addSocket {bConnected : Bool} {client : ℕ} {socket : CIPCSocket}
    (hget : (addSocket bConnected server).m_Clients.get client = some socket) :
    client = server.count ∧ socket = .incomming bConnected ∨
      client ≠ server.count ∧ server.m_Clients.get client = some socket := by
  unfold addSocket at hget
  dsimp only at hget
  by_cases hclient : client = server.count
  · rw [hclient, get_insert_self, Option.some.injEq] at hget
    exact Or.inl ⟨hclient, hget.symm⟩
  · rw [get_insert_of_ne _ _ hclient] at hget
    exact Or.inr ⟨hclient, hget⟩

/-- A local client. -/
theorem Inv.localConnection (h : Inv token server) (htoken : token ≠ "") : Inv token (addSocket true server) := by
  constructor
  · intro client socket hstranger hget
    rcases get_addSocket hget with ⟨rfl, -⟩ | ⟨-, hold⟩
    · exact absurd (h.remotes _ hstranger.1) (lt_irrefl _)
    · exact h.closed client socket hstranger hold
  · exact h.silent
  · intro client socket hget hhas
    rcases get_addSocket hget with ⟨-, rfl⟩ | ⟨-, hold⟩
    · exact absurd hhas.symm htoken
    · exact h.held client socket hold hhas
  · exact fun _ _ _ => htoken
  · intro client socket hget
    rcases get_addSocket hget with ⟨rfl, -⟩ | ⟨-, hold⟩
    · exact Nat.lt_succ_self _
    · exact (h.clients client socket hold).trans (Nat.lt_succ_self _)
  · exact fun client hm => (h.remotes client hm).trans (Nat.lt_succ_self _)
  · exact fun client output hm => (h.log client output hm).trans (Nat.lt_succ_self _)

/-- A remote client. -/
theorem Inv.remoteConnection (h : Inv token server) (htoken : token ≠ "") :
    Inv token { addSocket false server with remotes := server.count :: server.remotes } := by
  have hold : ∀ client, client ≠ server.count →
      Stranger { addSocket false server with remotes := server.count :: server.remotes } client →
        Stranger server client := by
    intro client hne hstranger
    exact ⟨(List.mem_cons.mp hstranger.1).resolve_left hne, hstranger.2⟩
  constructor
  · intro client socket hstranger hget
    rcases get_addSocket hget with ⟨-, rfl⟩ | ⟨hne, hget⟩
    · rfl
    · exact h.closed client socket (hold client hne hstranger) hget
  · intro client output hstranger hm
    exact h.silent client output (hold client (h.log client output hm).ne hstranger) hm
  · intro client socket hget hhas
    rcases get_addSocket hget with ⟨-, rfl⟩ | ⟨-, hget⟩
    · exact absurd hhas.symm htoken
    · exact h.held client socket hget hhas
  · exact fun _ _ _ => htoken
  · intro client socket hget
    rcases get_addSocket hget with ⟨rfl, -⟩ | ⟨-, hget⟩
    · exact Nat.lt_succ_self _
    · exact (h.clients client socket hget).trans (Nat.lt_succ_self _)
  · intro client hm
    rcases List.mem_cons.mp hm with rfl | hm
    · exact Nat.lt_succ_self _
    · exact (h.remotes client hm).trans (Nat.lt_succ_self _)
  · exact fun client output hm => (h.log client output hm).trans (Nat.lt_succ_self _)

/-- A socket does something that keeps a stranger out, and gives no token that was not handed out. -/
theorem Inv.onSocket (h : Inv token server) {client : ℕ} {act : CIPCSocket → CIPCSocket × List (Output V)}
    (hact : ∀ socket, server.m_Clients.get client = some socket →
      (Stranger server client → (act socket).1.m_bConnected = false ∧ Quiet (act socket).2) ∧
      ((act socket).1.m_LoginToken = token → token ∈ server.granted)) :
    Inv token (onSocket client act server) := by
  unfold IpcLogin.onSocket
  cases hget : server.m_Clients.get client with
  | none => exact h
  | some socket =>
    obtain ⟨hout, htoken⟩ := hact socket hget
    dsimp only
    constructor
    · intro other socket' hstranger hget'
      dsimp only at hget'
      by_cases hother : other = client
      · rw [hother, get_insert_self, Option.some.injEq] at hget'
        rw [← hget']
        exact (hout (hother ▸ hstranger)).1
      · rw [get_insert_of_ne _ _ hother] at hget'
        exact h.closed other socket' hstranger hget'
    · intro other output hstranger hm
      rcases List.mem_append.mp hm with hm | hm
      · exact h.silent other output hstranger hm
      · obtain ⟨output', hm', heq⟩ := List.mem_map.mp hm
        obtain ⟨rfl, rfl⟩ := Prod.mk.injEq _ _ _ _ ▸ heq
        exact (hout hstranger).2 _ hm'
    · intro other socket' hget' hhas
      dsimp only at hget'
      by_cases hother : other = client
      · rw [hother, get_insert_self, Option.some.injEq] at hget'
        rw [← hget'] at hhas
        exact htoken hhas
      · rw [get_insert_of_ne _ _ hother] at hget'
        exact h.held other socket' hget' hhas
    · exact fun _ _ _ => h.named client socket hget
    · intro other socket' hget'
      dsimp only at hget'
      by_cases hother : other = client
      · exact hother ▸ h.clients client socket hget
      · rw [get_insert_of_ne _ _ hother] at hget'
        exact h.clients other socket' hget'
    · exact h.remotes
    · intro other output hm
      rcases List.mem_append.mp hm with hm | hm
      · exact h.log other output hm
      · obtain ⟨output', -, heq⟩ := List.mem_map.mp hm
        obtain ⟨rfl, -⟩ := Prod.mk.injEq _ _ _ _ ▸ heq
        exact h.clients client socket hget

/-- A login is noted down. -/
theorem Inv.noteLogin (env : Env V) (h : Inv token server) (client random : ℕ) (message : Message V) :
    Inv token (noteLogin env client random message server) := by
  unfold IpcLogin.noteLogin
  split_ifs
  · have hold : ∀ other, Stranger { server with
        presented := client :: server.presented
        granted := message.granted env random :: server.granted } other → Stranger server other :=
      fun other hstranger => ⟨hstranger.1, fun hm => hstranger.2 (List.mem_cons_of_mem _ hm)⟩
    exact ⟨fun other socket hstranger => h.closed other socket (hold other hstranger),
      fun other output hstranger => h.silent other output (hold other hstranger),
      fun other socket hget hhas => List.mem_cons_of_mem _ (h.held other socket hget hhas),
      h.named, h.clients, h.remotes, h.log⟩
  · exact h

section

variable (h : Inv token server)

include h

/-- A client goes. -/
theorem Inv.disconnected (client : ℕ) : Inv token { server with m_Clients := server.m_Clients.erase client } := by
  have hold : ∀ other socket, (server.m_Clients.erase client).get other = some socket →
      server.m_Clients.get other = some socket := by
    intro other socket hget
    by_cases hother : other = client
    · rw [hother, get_erase_self] at hget
      exact absurd hget.symm (Option.some_ne_none _)
    · rwa [get_erase_of_ne _ hother] at hget
  exact ⟨fun other socket hstranger hget => h.closed other socket hstranger (hold other socket hget),
    h.silent, fun other socket hget => h.held other socket (hold other socket hget),
    fun other socket hget => h.named other socket (hold other socket hget),
    fun other socket hget => h.clients other socket (hold other socket hget), h.remotes, h.log⟩

/-- A message that meets the condition. -/
theorem Inv.receive {client random : ℕ} {message : Message V}
    (hmeets : Meets env token server (.receive client random message)) :
    Inv token (step env server (.receive client random message)) := by
  have hnoted := h.noteLogin env client random message
  refine hnoted.onSocket fun socket hget => ?_
  have hclients : (IpcLogin.noteLogin env client random message server).m_Clients = server.m_Clients := by
    unfold IpcLogin.noteLogin
    split_ifs <;> rfl
  rw [hclients] at hget
  have hsome : (server.m_Clients.get client).isSome := by rw [hget]; rfl
  by_cases hres : message.IsLoginRes
  · -- an answer to a login makes the socket connected, whoever sent it
    obtain ⟨hstranger, hgranted⟩ := hmeets hres hsome
    obtain ⟨-, htoken⟩ := receive_loginRes env hres random socket
    have hsame : IpcLogin.noteLogin env client random message server = server :=
      if_neg fun hboth => hboth.2 (granted_of_isLoginRes hres random)
    rw [hsame, htoken]
    exact ⟨fun hs => absurd hs hstranger, hgranted⟩
  · by_cases hreq : message.granted env random = ""
    · obtain ⟨hconnected, htoken, hquiet⟩ := receive_other hres hreq socket
      have hsame : IpcLogin.noteLogin env client random message server = server := if_neg fun hboth => hboth.2 hreq
      rw [hsame]
      refine ⟨fun hs => ?_, fun hhas => ?_⟩
      · have hclosed := h.closed client socket hs hget
        exact ⟨hconnected.trans hclosed, hquiet hclosed⟩
      · rcases htoken with hsame | hempty
        · exact h.held client socket hget (hsame ▸ hhas)
        · exact absurd (hhas.symm.trans hempty) (h.named client socket hget)
    · have hnote : IpcLogin.noteLogin env client random message server = { server with
          presented := client :: server.presented
          granted := message.granted env random :: server.granted } := if_pos ⟨hsome, hreq⟩
      rw [hnote, receive_granted hreq]
      exact ⟨fun hs => absurd List.mem_cons_self hs.2, fun hhas => hhas ▸ List.mem_cons_self⟩

/-- One step that meets the condition. -/
theorem Inv.step {op : Op V} (hop : Meets env token server op) : Inv token (step env server op) := by
  cases op with
  | localConnection => exact h.localConnection hop
  | remoteConnection => exact h.remoteConnection hop
  | receive client random message => exact h.receive hop
  | pushEvent client name data =>
    refine h.onSocket fun socket hget => ?_
    have hclosed := h.closed client socket
    have htoken := h.held client socket hget
    unfold sendEvent
    split_ifs with hconnected
    · exact ⟨fun hs => absurd hconnected (by simp [hclosed hs hget]), htoken⟩
    · exact ⟨fun hs => ⟨hclosed hs hget, quiet_nil⟩, htoken⟩
  | sendRequest client name data =>
    refine h.onSocket fun socket hget => ?_
    have hclosed := h.closed client socket
    have htoken := h.held client socket hget
    unfold IpcLogin.sendRequest
    split_ifs with hconnected
    · exact ⟨fun hs => absurd hconnected (by simp [hclosed hs hget]), htoken⟩
    · exact ⟨fun hs => ⟨hclosed hs hget, quiet_nil⟩, htoken⟩
  | disconnected client => exact h.disconnected client

theorem Inv.run {ops : List (Op V)} (hops : RunMeets env token server ops) : Inv token (run env server ops) := by
  induction ops generalizing server with
  | nil => exact h
  | cons op ops ih => exact ih (h.step hops.1) hops.2

end

theorem runMeets_append {ops more : List (Op V)} : RunMeets env token server (ops ++ more) ↔
      RunMeets env token server ops ∧ RunMeets env token (run env server ops) more := by
  induction ops generalizing server with
  | nil => exact ⟨fun h => ⟨trivial, h⟩, And.right⟩
  | cons op ops ih =>
    rw [List.cons_append, RunMeets, RunMeets, ih, and_assoc]
    rfl

theorem hasLoginToken_addSocket (bConnected : Bool) : hasLoginToken (addSocket bConnected server) "" = true :=
  hasLoginToken_iff.mpr ⟨server.count, .incomming bConnected, get_insert_self _ _ _, rfl⟩

/-- Tokens are handed out as texts. -/
theorem empty_notMem_granted_step (h : "" ∉ server.granted) (op : Op V) : "" ∉ (step env server op).granted := by
  have hon : ∀ (server' : CIPCServer V) client act, (onSocket client act server').granted = server'.granted := by
    intro server' client act
    unfold onSocket
    split <;> rfl
  cases op with
  | localConnection => exact h
  | remoteConnection => exact h
  | receive client random message =>
    unfold IpcLogin.step
    dsimp only
    rw [hon]
    unfold noteLogin
    split_ifs with hlogin
    · intro hm
      exact (List.mem_cons.mp hm).elim (fun heq => hlogin.2 heq.symm) h
    · exact h
  | pushEvent client name data => exact (hon _ _ _).symm ▸ h
  | sendRequest client name data => exact (hon _ _ _).symm ▸ h
  | disconnected client => exact h

/-- A step after which the server is safe has met the condition. -/
theorem meets_of_safe (hempty : "" ∉ server.granted) {op : Op V} (h : Safe token (step env server op)) :
    Meets env token server op := by
  cases op with
  | localConnection =>
    rintro rfl
    exact hempty (h.held (hasLoginToken_addSocket true))
  | remoteConnection =>
    rintro rfl
    exact hempty (h.held (hasLoginToken_addSocket false))
  | receive client random message =>
    intro hres hsome
    obtain ⟨socket, hget⟩ := Option.isSome_iff_exists.mp hsome
    obtain ⟨hconnected, htoken⟩ := receive_loginRes env hres random socket
    have hstep : step env server (.receive client random message) = { server with
        m_Clients := server.m_Clients.insert client (receive env random message socket).1
        log := server.log ++ (receive env random message socket).2.map (Prod.mk client) } := by
      unfold IpcLogin.step noteLogin onSocket
      dsimp only
      rw [if_neg fun hboth => hboth.2 (granted_of_isLoginRes hres random), hget]
    rw [hstep] at h
    constructor
    · intro hstranger
      have hclosed := h.closed client _ hstranger (get_insert_self _ _ _)
      exact absurd hconnected (by simp [hclosed])
    · intro hsame
      exact h.held (hasLoginToken_iff.mpr ⟨client, _, get_insert_self _ _ _, htoken.trans hsame⟩)
  | pushEvent => exact trivial
  | sendRequest => exact trivial
  | disconnected => exact trivial

/-- A run is safe in every state if and only if its steps meet the condition. -/
theorem safe_iff (env : Env V) (token : String) (ops : List (Op V)) :
    (∀ steps, steps <+: ops → Safe token (run env CIPCServer.new steps)) ↔
      RunMeets env token CIPCServer.new ops := by
  constructor
  · intro hsafe
    have hrun : ∀ steps more, steps ++ more = ops → RunMeets env token CIPCServer.new steps ∧
        "" ∉ (run env (CIPCServer.new : CIPCServer V) steps).granted := by
      intro steps
      induction steps using List.reverseRecOn with
      | nil => exact fun _ _ => ⟨trivial, List.not_mem_nil⟩
      | append_singleton steps op ih =>
        intro more hops
        obtain ⟨hmeets, hempty⟩ := ih (op :: more) (by rw [← hops, List.append_assoc]; rfl)
        have hlast : run env CIPCServer.new (steps ++ [op]) =
            step env (run env CIPCServer.new steps) op := List.foldl_concat _ _ _ _
        have hstep := hsafe (steps ++ [op]) ⟨more, hops⟩
        rw [hlast] at hstep ⊢
        exact ⟨runMeets_append.mpr ⟨hmeets, meets_of_safe hempty hstep, trivial⟩, empty_notMem_granted_step hempty op⟩
    exact (hrun ops [] (List.append_nil ops)).1
  · rintro hmeets steps ⟨more, rfl⟩
    exact (inv_new.run (runMeets_append.mp hmeets).1).safe

/-- A server that accepts no login at all. -/
def closedEnv : Env (List (String × String)) where
  text := fun data key => (data.lookup key).getD ""
  map := id
  invalid := []
  ofText := fun text => [("", text)]
  keyResponse := fun _ _ => []
  finaliseKeyExchange := fun _ _ => false
  checkLogin := fun _ _ _ => ""
  processRequest := fun _ _ data => data

/-- A remote client answers a login that nobody asked for, and then sends a request. -/
def forgedLogin : List (Op (List (String × String))) :=
  [.remoteConnection, .receive 0 0 ⟨"Login", "Response", [("Token", "x")], 0⟩, .receive 0 0 ⟨"Request", "Stop", [], 1⟩]

/-- The client never presented a user and a password that were accepted, and yet it is connected, its
request is emitted and answered, and its token holds. Before all that the empty token holds. -/
theorem safe_wrong : (run closedEnv .new forgedLogin).log =
        [(0, .connected), (0, .request "Stop" [] 1), (0, .sent ⟨"Response", "Stop", [], 1⟩)] ∧
      (run closedEnv .new forgedLogin).presented = [] ∧
      (run closedEnv .new forgedLogin).granted = [] ∧
      hasLoginToken (run closedEnv .new forgedLogin) "x" = true ∧
      hasLoginToken (run closedEnv .new [.remoteConnection]) "" = true ∧
      ¬Safe "x" (run closedEnv .new forgedLogin) := by
  have hgranted : (run closedEnv .new forgedLogin).granted = [] := by decide
  have hhas : hasLoginToken (run closedEnv .new forgedLogin) "x" = true := by decide
  refine ⟨by decide, by decide, hgranted, hhas, by decide, fun hsafe => ?_⟩
  have hmem := hsafe.held hhas
  rw [hgranted] at hmem
  exact absurd hmem List.not_mem_nil

end Runs

end NeoLoader.IpcLogin
