import NeoLoader.ChannelAuthentication

/-!
# What makes a channel authenticated

Without a packet that a node has signed, without the name of a key that was authenticated
for it, and without an answer to a request with such a key, no channel of the node becomes
authenticated and no address of it verified. Each of the three makes a channel
authenticated, also where it is repeated by someone else.
-/

namespace NeoLoader.ChannelForgery

open KeyMap KeyMap.OrderedMap NodeAddresses ChannelAuthentication

section Safe

variable (id key : ℕ)

/-- The node with an identifier has the right key, if any, and no verified address. -/
def SafeNode (n : CKadNode) : Prop :=
  n.id = id → (∀ k ∈ n.publicKey, k = key) ∧ ∀ a ∈ n.addresses, a.verifyed = false

/-- No channel of the node with an identifier is authenticated, and none of its addresses
is verified. -/
structure Safe (h : CKadHandler) : Prop where
  /-- The nodes. -/
  nodes : ∀ pNode n, h.nodes.get pNode = some n → SafeNode id key n
  /-- The channels, which belong to nodes. -/
  channels : ∀ pChannel data, h.channels.get pChannel = some data →
    ∃ n, h.nodes.get data.pNode = some n ∧ (n.id = id → data.authenticated = false)

/-- A request that neither repeats what the node has signed nor names its trusted key. -/
def RequestMeets (c : Crypto) (n : CKadNode) (request : CryptoRequest) : Prop :=
  request.signed ≠ some key ∧ ∀ t ∈ n.trustedKey, request.ek = none → t.authenticated = true →
    request.fp ≠ some (c.fingerPrint t.key)

/-- A response that neither repeats what the node has signed nor answers a request with its
trusted key. -/
def ResponseMeets (h : CKadHandler) (pNode pChannel : ℕ) (response : CryptoResponse) : Prop :=
  response.signed ≠ some key ∧ ∀ k ∈ h.keyExchanges, isExchange pNode pChannel k = true →
    ∀ t, k.pExchange = some (CKeyExchange.trusted t) → k.bAuthenticate = false

/-- What comes in on the channels of the node with an identifier. -/
def Meets (c : Crypto) (h : CKadHandler) : Op → Prop
  | .processPacket pChannel _ packet _ _ _ =>
    ∀ data n, h.channels.get pChannel = some data → h.nodes.get data.pNode = some n → n.id = id →
      match packet with
      | .cryptoRequest request => RequestMeets key c n request
      | .cryptoResponse response => ResponseMeets key h data.pNode pChannel response
      | _ => True
  | _ => True

/-- Each step of a run meets its condition. -/
def RunMeets (c : Crypto) (own : Own) (h : CKadHandler) : List Op → Prop
  | [] => True
  | op :: ops => Meets id key c h op ∧ ∀ h' ∈ step c own h op, RunMeets c own h' ops

variable {id key} {h h' : CKadHandler}

section

variable (hsafe : Safe id key h)

include hsafe

theorem Safe.of_eq (hnodes : h'.nodes = h.nodes) (hchannels : h'.channels = h.channels) : Safe id key h' where
  nodes := by
    rw [hnodes]
    exact hsafe.nodes
  channels := by
    rw [hnodes, hchannels]
    exact hsafe.channels

/-- Another value for a node. -/
theorem Safe.set_node {pNode : ℕ} {n : CKadNode} (n' : CKadNode)
    (hn : h.nodes.get pNode = some n) (hid : n'.id = n.id) (hn' : SafeNode id key n')
    (hnodes : h'.nodes = h.nodes.insert pNode n') (hchannels : h'.channels = h.channels) : Safe id key h' where
  nodes := by
    intro other m hm
    rw [hnodes] at hm
    by_cases hother : other = pNode
    · rw [hother, get_insert_self] at hm
      cases hm
      exact hn'
    · rw [get_insert_of_ne _ _ hother] at hm
      exact hsafe.nodes other m hm
  channels := by
    intro pChannel data hdata
    rw [hchannels] at hdata
    obtain ⟨m, hm, hauth⟩ := hsafe.channels pChannel data hdata
    rw [hnodes]
    by_cases hother : data.pNode = pNode
    · rw [hother, hn] at hm
      cases hm
      exact ⟨n', by rw [hother, get_insert_self], fun hid' => hauth (hid.symm.trans hid')⟩
    · exact ⟨m, by rw [get_insert_of_ne _ _ hother, hm], hauth⟩

/-- Another value for a channel. -/
theorem Safe.set_channel {pChannel : ℕ} {n : CKadNode} (data : SKadData)
    (hn : h.nodes.get data.pNode = some n) (hdata : n.id = id → data.authenticated = false)
    (hnodes : h'.nodes = h.nodes) (hchannels : h'.channels = h.channels.insert pChannel data) : Safe id key h' where
  nodes := by
    rw [hnodes]
    exact hsafe.nodes
  channels := by
    intro other d hd
    rw [hchannels] at hd
    rw [hnodes]
    by_cases hother : other = pChannel
    · rw [hother, get_insert_self] at hd
      cases hd
      exact ⟨n, hn, hdata⟩
    · rw [get_insert_of_ne _ _ hother] at hd
      exact hsafe.channels other d hd

theorem Safe.set {pNode pChannel : ℕ} {n n' : CKadNode} {data : SKadData}
    (hn : h.nodes.get pNode = some n) (hid : n'.id = n.id) (hn' : SafeNode id key n')
    (hpNode : data.pNode = pNode) (hdata : n.id = id → data.authenticated = false) :
    Safe id key (h.set pNode pChannel n' data) := by
  have hnode : Safe id key { h with nodes := h.nodes.insert pNode n' } :=
    hsafe.set_node n' hn hid hn' rfl rfl
  have hget : (h.nodes.insert pNode n').get data.pNode = some n' := by
    rw [hpNode, get_insert_self]
  exact hnode.set_channel data hget (fun h' => hdata (hid.symm.trans h')) rfl rfl

/-- A channel with another cipher, or closed. -/
theorem Safe.modify {pChannel : ℕ} {f : SKadData → SKadData}
    (hf : ∀ data, (f data).pNode = data.pNode ∧ (f data).authenticated = data.authenticated)
    (hnodes : h'.nodes = h.nodes) (hchannels : h'.channels = h.channels.modify pChannel f) : Safe id key h' where
  nodes := by
    rw [hnodes]
    exact hsafe.nodes
  channels := by
    intro other d hd
    rw [hchannels] at hd
    rw [hnodes]
    by_cases hother : other = pChannel
    · rw [hother, get_modify_self] at hd
      obtain ⟨data, hdata, rfl⟩ := Option.map_eq_some_iff.mp hd
      obtain ⟨n, hn, hauth⟩ := hsafe.channels pChannel data hdata
      exact ⟨n, by rw [(hf data).1, hn], fun hid => by rw [(hf data).2, hauth hid]⟩
    · rw [get_modify_of_ne _ _ hother] at hd
      exact hsafe.channels other d hd

theorem Safe.close (pChannel : ℕ) : Safe id key (h.close pChannel) :=
  hsafe.modify (f := fun data => { data with closed := true }) (fun _ => ⟨rfl, rfl⟩) rfl rfl

end

end Safe

section Keys

variable {c : Crypto} {id key : ℕ}

theorem setIDKey_kept (info : IDKey) (n : CKadNode) :
    (n.setIDKey c info).2.id = n.id ∧ (n.setIDKey c info).2.addresses = n.addresses := by
  unfold CKadNode.setIDKey
  split
  · exact ⟨rfl, rfl⟩
  · split
    · exact ⟨rfl, rfl⟩
    · split_ifs <;> exact ⟨rfl, rfl⟩

/-- The key that is learned is the one of the identifier. -/
theorem setIDKey_publicKey (hkey : ∀ k hk, c.makeID k hk = id → k = key) (info : IDKey)
    {n : CKadNode} (hid : n.id = id) (hn : ∀ k ∈ n.publicKey, k = key) :
    (∀ k ∈ (n.setIDKey c info).2.publicKey, k = key) ∧ ∀ k ∈ (n.setIDKey c info).1, k = key := by
  unfold CKadNode.setIDKey
  cases info.pk with
  | none => exact ⟨hn, by simp⟩
  | some pk =>
    cases hknown : n.publicKey with
    | some known =>
      have hright := hn known hknown
      dsimp only
      split_ifs
      · simp [hknown, hright]
      · simp [hknown, hright]
    | none =>
      dsimp only
      split_ifs with hmake
      · have hpk := hkey pk info.hk (hmake.trans hid)
        simp [hpk]
      · simp [hknown]

theorem pubKey_kept (info : Option IDKey) (n : CKadNode) :
    (n.pubKey c info).2.id = n.id ∧ (n.pubKey c info).2.addresses = n.addresses := by
  cases info with
  | none => exact ⟨rfl, rfl⟩
  | some info => exact setIDKey_kept info n

theorem pubKey_publicKey (hkey : ∀ k hk, c.makeID k hk = id → k = key) (info : Option IDKey)
    {n : CKadNode} (hid : n.id = id) (hn : ∀ k ∈ n.publicKey, k = key) :
    (∀ k ∈ (n.pubKey c info).2.publicKey, k = key) ∧ ∀ k ∈ (n.pubKey c info).1, k = key := by
  cases info with
  | none => exact ⟨hn, hn⟩
  | some info => exact setIDKey_publicKey hkey info hid hn

theorem verify_kept (info : Option IDKey) (signed : Option ℕ) (n : CKadNode) :
    (n.verify c info signed).1.id = n.id ∧ (n.verify c info signed).1.addresses = n.addresses := by
  have hkept := pubKey_kept (c := c) info n
  unfold CKadNode.verify
  cases hfound : n.pubKey c info with
  | mk pPubKey n' =>
    rw [hfound] at hkept
    cases pPubKey <;> exact hkept

/-- Only what the node has signed passes the check of a signature. -/
theorem verify_publicKey (hkey : ∀ k hk, c.makeID k hk = id → k = key) (info : Option IDKey)
    (signed : Option ℕ) {n : CKadNode} (hid : n.id = id) (hn : ∀ k ∈ n.publicKey, k = key) :
    (∀ k ∈ (n.verify c info signed).1.publicKey, k = key) ∧
      ((n.verify c info signed).2 = none → signed = some key) := by
  have hknown := pubKey_publicKey hkey info hid hn
  unfold CKadNode.verify
  cases hfound : n.pubKey c info with
  | mk pPubKey n' =>
    rw [hfound] at hknown
    cases pPubKey with
    | none => exact ⟨hknown.1, by simp⟩
    | some pPubKey =>
      refine ⟨hknown.1, fun hpass => ?_⟩
      dsimp only at hpass
      split_ifs at hpass with hsigned
      rw [hsigned, hknown.2 pPubKey rfl]

end Keys

section Requests

variable {c : Crypto} {id key : ℕ}

/-- What a request leaves of a node and of its channel. -/
structure RequestOk (id key : ℕ) (n : CKadNode) (data : SKadData) (n' : CKadNode)
    (data' : SKadData) : Prop where
  /-- The identifier stays. -/
  sameId : n'.id = n.id
  /-- The node is as it has to be. -/
  node : SafeNode id key n'
  /-- The channel belongs to its node. -/
  pNode : data'.pNode = data.pNode
  /-- The channel is not authenticated. -/
  authenticated : n.id = id → data'.authenticated = false

variable {n : CKadNode} {data : SKadData} {request : CryptoRequest}

section

variable (hkey : ∀ k hk, c.makeID k hk = id → k = key)

include hkey

/-- A key exchange that the node has not signed makes no channel authenticated. -/
theorem exchangeRequest_ok (ephemeral ek : ℕ) (hn : SafeNode id key n) (hdata : n.id = id → data.authenticated = false)
    (hsigned : n.id = id → request.signed ≠ some key) :
    RequestOk id key n data (exchangeRequest c ephemeral ek request n data).1
      (exchangeRequest c ephemeral ek request n data).2.1 := by
  unfold exchangeRequest
  cases c.exchange ephemeral ek with
  | none => exact ⟨rfl, hn, rfl, hdata⟩
  | some sessionKey =>
    dsimp only
    by_cases hsome : request.signed.isSome = true
    · have hkept := verify_kept (c := c) request.idKey request.signed n
      have hverify := fun hid => verify_publicKey hkey request.idKey request.signed hid (hn hid).1
      rw [if_pos hsome]
      cases hresult : n.verify c request.idKey request.signed with
      | mk n' error =>
        rw [hresult] at hkept
        rw [hresult] at hverify
        have hn' : SafeNode id key n' := by
          intro hid
          have hid' := hkept.1.symm.trans hid
          exact ⟨(hverify hid').1, by rw [hkept.2]; exact (hn hid').2⟩
        cases error with
        | some error => exact ⟨hkept.1, hn', rfl, hdata⟩
        | none =>
          refine ⟨hkept.1, hn', rfl, fun hid => ?_⟩
          exact absurd ((hverify hid).2 rfl) (hsigned hid)
    · rw [if_neg hsome]
      exact ⟨rfl, hn, rfl, fun _ => by simpa using hsome⟩

/-- A request that meets the condition makes no channel authenticated. -/
theorem requestKey_ok (ephemeral : ℕ) (hn : SafeNode id key n) (hdata : n.id = id → data.authenticated = false)
    (hmeets : n.id = id → RequestMeets key c n request) :
    RequestOk id key n data (requestKey c ephemeral request n data).1 (requestKey c ephemeral request n data).2.1 := by
  have hsame : RequestOk id key n data n data := ⟨rfl, hn, rfl, hdata⟩
  unfold requestKey
  cases hek : request.ek with
  | some ek =>
    dsimp only
    split_ifs
    · exact exchangeRequest_ok hkey ephemeral ek hn hdata fun hid => (hmeets hid).1
    · exact hsame
  | none =>
    cases hfp : request.fp with
    | none => exact hsame
    | some fp =>
      dsimp only
      unfold fingerPrintRequest
      cases htrusted : n.trustedKey with
      | none => exact hsame
      | some t =>
        dsimp only
        split_ifs with hprint
        · exact hsame
        · refine ⟨rfl, hn, rfl, fun hid => ?_⟩
          have hnot := (hmeets hid).2 t htrusted hek
          rw [hfp] at hnot
          dsimp only
          cases hauth : t.authenticated with
          | false => rfl
          | true => exact absurd (congrArg some (not_not.mp hprint).symm) (hnot hauth)

/-- `HandleCryptoRequest` makes no channel authenticated by a request that meets the
condition. -/
theorem handleCryptoRequest_ok (own : Own) (ephemeral : ℕ) (hn : SafeNode id key n)
    (hdata : n.id = id → data.authenticated = false) (hmeets : n.id = id → RequestMeets key c n request) :
    RequestOk id key n data (handleCryptoRequest c own ephemeral request n data).1
      (handleCryptoRequest c own ephemeral request n data).2.1 := by
  have hok := requestKey_ok hkey ephemeral hn hdata hmeets
  unfold handleCryptoRequest
  cases hresult : requestKey c ephemeral request n data with
  | mk n' rest =>
    obtain ⟨data', result⟩ := rest
    rw [hresult] at hok
    cases result with
    | error error => exact hok
    | ok sessionKey =>
      dsimp only
      cases cipherOf request.iv sessionKey with
      | error error => exact hok
      | ok cipher =>
        cases cipher with
        | none => exact hok
        | some cipher => exact ⟨hok.sameId, hok.node, hok.pNode, hok.authenticated⟩

end

end Requests

section Responses

variable {c : Crypto} {own : Own} {id key : ℕ} {h h' : CKadHandler}

theorem Safe.resumeExchange (hsafe : Safe id key h) (pNode ephemeral : ℕ) :
    Safe id key (resumeExchange c own pNode ephemeral h) := by
  unfold ChannelAuthentication.resumeExchange
  split <;> exact hsafe.of_eq rfl rfl

/-- The end of an exchange leaves the nodes and what is authenticated alone. -/
theorem Safe.finishExchange (hsafe : Safe id key h) (response : CryptoResponse) (k : SKeyExchange)
    (sessionKey : ℕ) (hh' : finishExchange response k sessionKey h = some h') : Safe id key h' := by
  unfold ChannelAuthentication.finishExchange at hh'
  cases hiv : response.iv with
  | none =>
    rw [hiv] at hh'
    cases hh'
    exact hsafe.of_eq rfl rfl
  | some good =>
    rw [hiv] at hh'
    dsimp only at hh'
    split_ifs at hh'
    · cases hh'
      exact hsafe.modify (f := fun data => { data with cipher := some sessionKey }) (fun _ => ⟨rfl, rfl⟩) rfl rfl
    · cases hh'
      exact hsafe.close k.pChannel

/-- An answer that meets the condition makes no channel authenticated. -/
theorem Safe.acceptResponse (hkey : ∀ k hk, c.makeID k hk = id → k = key) (hsafe : Safe id key h)
    {ephemeral : ℕ} {response : CryptoResponse} {k : SKeyExchange} {n : CKadNode} {data : SKadData}
    (hn : h.nodes.get k.pNode = some n) (hpNode : data.pNode = k.pNode) (hdata : n.id = id → data.authenticated = false)
    (hsigned : n.id = id → response.signed ≠ some key)
    (htrusted : n.id = id → ∀ t, k.pExchange = some (CKeyExchange.trusted t) → k.bAuthenticate = false)
    (hh' : acceptResponse c own ephemeral response k n data h = some h') : Safe id key h' := by
  have hnode := hsafe.nodes k.pNode n hn
  unfold ChannelAuthentication.acceptResponse at hh'
  cases hexchange : k.pExchange with
  | none =>
    rw [hexchange] at hh'
    cases hh'
  | some exchange =>
    rw [hexchange] at hh'
    cases exchange with
    | trusted t =>
      have hset : Safe id key (h.set k.pNode k.pChannel n
          { data with authenticated := k.bAuthenticate }) :=
        hsafe.set hn rfl hnode hpNode fun hid => htrusted hid t hexchange
      exact hset.finishExchange response k t hh'
    | exchange ephemeral' =>
      dsimp only at hh'
      cases hkeys : response.ek.bind (c.exchange ephemeral') with
      | none =>
        rw [hkeys] at hh'
        cases hh'
        exact hsafe.close k.pChannel
      | some sessionKey =>
        rw [hkeys] at hh'
        dsimp only at hh'
        by_cases hauth : k.bAuthenticate = true
        · have hkept := verify_kept (c := c) response.idKey response.signed n
          have hverify := fun hid =>
            verify_publicKey hkey response.idKey response.signed hid (hnode hid).1
          rw [if_pos hauth] at hh'
          cases hresult : n.verify c response.idKey response.signed with
          | mk n' error =>
            rw [hresult] at hkept hh'
            rw [hresult] at hverify
            have hn' : SafeNode id key n' := by
              intro hid
              have hid' := hkept.1.symm.trans hid
              exact ⟨(hverify hid').1, by rw [hkept.2]; exact (hnode hid').2⟩
            cases error with
            | some error =>
              cases hh'
              exact (hsafe.set hn hkept.1 hn' hpNode hdata).close k.pChannel
            | none =>
              have hset : Safe id key (h.set k.pNode k.pChannel
                  { n' with trustedKey := some ⟨sessionKey, k.bAuthenticate⟩ }
                  { data with authenticated := k.bAuthenticate }) :=
                hsafe.set hn hkept.1 hn' hpNode fun hid =>
                  absurd ((hverify hid).2 rfl) (hsigned hid)
              exact (hset.resumeExchange k.pNode ephemeral).finishExchange response k sessionKey hh'
        · rw [if_neg hauth] at hh'
          have hset : Safe id key (h.set k.pNode k.pChannel
              { n with trustedKey := some ⟨sessionKey, k.bAuthenticate⟩ }
              { data with authenticated := k.bAuthenticate }) :=
            hsafe.set hn rfl hnode hpNode fun _ => by simpa using hauth
          exact (hset.resumeExchange k.pNode ephemeral).finishExchange response k sessionKey hh'

/-- `HandleCryptoResponse` makes no channel authenticated by an answer that meets the
condition. -/
theorem Safe.handleCryptoResponse (hkey : ∀ k hk, c.makeID k hk = id → k = key)
    (hsafe : Safe id key h) {ephemeral pNode pChannel : ℕ} {response : CryptoResponse}
    {n : CKadNode} {data : SKadData} (hn : h.nodes.get pNode = some n) (hpNode : data.pNode = pNode)
    (hdata : n.id = id → data.authenticated = false) (hmeets : n.id = id → ResponseMeets key h pNode pChannel response)
    (hh' : handleCryptoResponse c own ephemeral response pNode pChannel n data h = some h') : Safe id key h' := by
  unfold ChannelAuthentication.handleCryptoResponse at hh'
  cases hfind : h.keyExchanges.find? (isExchange pNode pChannel) with
  | none =>
    rw [hfind] at hh'
    cases hh'
    exact hsafe.close pChannel
  | some k =>
    rw [hfind] at hh'
    have hk : isExchange pNode pChannel k = true := List.find?_some hfind
    have hmem := List.mem_of_find?_eq_some hfind
    have hsame : k.pNode = pNode := (of_decide_eq_true hk).1
    dsimp only at hh'
    cases herr : response.err with
    | none =>
      rw [herr] at hh'
      refine hsafe.acceptResponse hkey (k := k) (by rw [hsame, hn]) (hpNode.trans hsame.symm) hdata
        (fun hid => (hmeets hid).1) (fun hid t ht => (hmeets hid).2 k hmem hk t ht) hh'
    | some error =>
      rw [herr] at hh'
      dsimp only at hh'
      split_ifs at hh'
      · cases hh'
        refine Safe.resumeExchange ?_ pNode ephemeral
        exact hsafe.set_node { n with trustedKey := none } hn rfl (hsafe.nodes pNode n hn) rfl rfl
      · cases hh'
        exact hsafe.close pChannel

end Responses

section Runs

variable {c : Crypto} {own : Own} {id key : ℕ} {h h' : CKadHandler}

theorem foldl_updateAddress_verifyed (addr : List CNodeAddress) {entries : List CNodeAddress}
    (hentries : ∀ entry ∈ entries, entry.verifyed = false) : ∀ entry ∈ addr.foldl (fun entries address => updateAddress
      { address with auxPort := 0, verifyed := false } entries) entries, entry.verifyed = false := by
  induction addr generalizing entries with
  | nil => exact hentries
  | cons address addr ih => exact ih (updateAddress_verifyed _ rfl hentries)

/-- `HandleHello` verifies no address over a channel that is not authenticated. -/
theorem Safe.handleHello (hsafe : Safe id key h) (bReq : Bool) (addr : List CNodeAddress)
    {pNode pChannel : ℕ} {n : CKadNode} {data : SKadData} (hn : h.nodes.get pNode = some n)
    (hdata : n.id = id → data.authenticated = false) :
    Safe id key (handleHello own bReq addr pNode pChannel n data h) := by
  have hnode := hsafe.nodes pNode n hn
  have haddresses : n.id = id → ∀ entry ∈ addr.foldl (fun entries address => updateAddress
      { address with auxPort := 0, verifyed := data.authenticated } entries) n.addresses, entry.verifyed = false := by
    intro hid
    rw [hdata hid]
    exact foldl_updateAddress_verifyed addr (hnode hid).2
  exact hsafe.set_node { n with
      addresses := addr.foldl (fun entries address => updateAddress
        { address with auxPort := 0, verifyed := data.authenticated } entries) n.addresses }
    hn rfl (fun hid => ⟨(hnode hid).1, haddresses hid⟩) rfl rfl

/-- A channel that is accepted is not authenticated. -/
theorem Safe.acceptChannel (hsafe : Safe id key h) (pChannel pNode nid : ℕ)
    (address : CNodeAddress) : Safe id key (acceptChannel own pChannel pNode nid address h) := by
  unfold ChannelAuthentication.acceptChannel
  dsimp only
  split_ifs
  · exact hsafe
  · cases hn : h.nodes.get pNode with
    | some n =>
      have hnode := hsafe.nodes pNode n hn
      let n' : CKadNode := { n with
        addresses := updateAddress { address with auxPort := 0, verifyed := false } n.addresses }
      have haddress : Safe id key { h with nodes := h.nodes.insert pNode n' } :=
        hsafe.set_node n' hn rfl (fun hid => ⟨(hnode hid).1, updateAddress_verifyed _ rfl (hnode hid).2⟩) rfl rfl
      exact haddress.set_channel ⟨pNode, false, none, false⟩ (get_insert_self _ _ _) (fun _ => rfl) rfl rfl
    | none =>
      have hnew : SafeNode id key { CKadNode.new nid with
          addresses := updateAddress { address with auxPort := 0, verifyed := false } [] } :=
        fun _ => ⟨by simp [CKadNode.new], updateAddress_verifyed _ rfl (by simp)⟩
      refine ⟨fun other m hm => ?_, fun other d hd => ?_⟩
      · dsimp only at hm
        by_cases hother : other = pNode
        · rw [hother, get_insert_self] at hm
          cases hm
          exact hnew
        · rw [get_insert_of_ne _ _ hother] at hm
          exact hsafe.nodes other m hm
      · dsimp only at hd ⊢
        by_cases hother : other = pChannel
        · rw [hother, get_insert_self] at hd
          cases hd
          exact ⟨_, get_insert_self _ _ _, fun _ => rfl⟩
        · rw [get_insert_of_ne _ _ hother] at hd
          obtain ⟨m, hm, hauth⟩ := hsafe.channels other d hd
          have hne : d.pNode ≠ pNode := by
            rintro rfl
            rw [hn] at hm
            cases hm
          exact ⟨m, by rw [get_insert_of_ne _ _ hne, hm], hauth⟩

section

variable (hkey : ∀ k hk, c.makeID k hk = id → k = key) (hsafe : Safe id key h)

include hkey hsafe

/-- A packet that meets the condition makes no channel authenticated. -/
theorem Safe.handlePacket {ephemeral pChannel : ℕ} {packet : Packet} {n : CKadNode} {data : SKadData}
    (hchannel : h.channels.get pChannel = some data) (hn : h.nodes.get data.pNode = some n)
    (hmeets : n.id = id → match packet with
      | .cryptoRequest request => RequestMeets key c n request
      | .cryptoResponse response => ResponseMeets key h data.pNode pChannel response
      | _ => True)
    (hh' : handlePacket c own ephemeral pChannel packet n data h = some h') : Safe id key h' := by
  have hdata : n.id = id → data.authenticated = false := by
    obtain ⟨m, hm, hauth⟩ := hsafe.channels pChannel data hchannel
    rw [hn] at hm
    cases hm
    exact hauth
  cases packet with
  | init nid =>
    cases hh'
    split_ifs
    · exact hsafe.close pChannel
    · exact hsafe
  | cryptoRequest request =>
    cases hh'
    have hok := handleCryptoRequest_ok hkey own ephemeral (hsafe.nodes data.pNode n hn) hdata hmeets
    exact (hsafe.set hn hok.sameId hok.node hok.pNode hok.authenticated).of_eq rfl rfl
  | cryptoResponse response => exact hsafe.handleCryptoResponse hkey hn rfl hdata hmeets hh'
  | hello bReq addr =>
    cases hh'
    exact hsafe.handleHello bReq addr hn hdata

/-- A step that meets its condition makes no channel authenticated. -/
theorem Safe.step {op : Op} (hmeets : Meets id key c h op) (hh' : step c own h op = some h') : Safe id key h' := by
  cases op with
  | processPacket pChannel cipher packet pNode address ephemeral =>
    unfold ChannelAuthentication.step at hh'
    dsimp only at hh'
    cases hchannel : h.channels.get pChannel with
    | none =>
      rw [hchannel] at hh'
      cases packet with
      | init nid =>
        cases hh'
        exact hsafe.acceptChannel pChannel pNode nid address
      | _ =>
        cases hh'
        exact hsafe
    | some data =>
      rw [hchannel] at hh'
      dsimp only at hh'
      split_ifs at hh'
      · cases hh'
        exact hsafe
      · cases hn : h.nodes.get data.pNode with
        | none =>
          rw [hn] at hh'
          cases hh'
          exact hsafe
        | some n =>
          rw [hn] at hh'
          exact hsafe.handlePacket hkey hchannel hn (hmeets data n hchannel hn) hh'
  | prepareChannel pNode pChannel ephemeral =>
    unfold ChannelAuthentication.step at hh'
    dsimp only at hh'
    split_ifs at hh' with hthere
    · cases hh'
      exact hsafe
    · cases hh'
      refine Safe.resumeExchange ?_ pNode ephemeral
      obtain ⟨n, hn⟩ : ∃ n, h.nodes.get pNode = some n := by
        rw [not_or] at hthere
        exact Option.ne_none_iff_exists'.mp (by simpa using hthere.2)
      exact hsafe.set_channel ⟨pNode, false, none, false⟩ hn (fun _ => rfl) rfl rfl
  | process disconnected =>
    cases hh'
    exact hsafe.of_eq rfl rfl

/-- In every run whose steps meet the condition, no channel of the node becomes
authenticated and no address of it verified. -/
theorem Safe.run {ops : List Op} (hmeets : RunMeets id key c own h ops) (hh' : run c own h ops = some h') :
    Safe id key h' := by
  induction ops generalizing h with
  | nil =>
    cases hh'
    exact hsafe
  | cons op ops ih =>
    obtain ⟨h1, hh1, hrun⟩ := Option.bind_eq_some_iff.mp hh'
    exact ih (hsafe.step hkey hmeets.1 hh1) (hmeets.2 h1 hh1) hrun

end

end Runs

end NeoLoader.ChannelForgery
