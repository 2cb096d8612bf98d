import XNetty.WebSocket.Upgrade

/-!
# The two upgrade tests

`WebSocketHandshake` has a test for upgrade requests and an answer of its own, which the server's
handlers do not use. The test of `WebSocketUpgradeHandler` is another one: it knows two spellings of
`websocket` and does not look at `Connection`.

## Main definitions

* `WebSocketHandshake.isUpgradeRequest`, `WebSocketHandshake.createResponse` — the functions.
* `WebSocketUpgradeHandler.Agrees` — the handler answers what the test accepts, with the key of
  the answer.
-/

namespace XNetty

namespace HttpRequest

/-- What `header` returns. -/
def headerValue (req : HttpRequest) (key : Bytes) : Bytes := (req.header key).1

@[simp] theorem header_fst (req : HttpRequest) (key : Bytes) :
    (req.header key).1 = req.headerValue key := rfl

@[simp] theorem header_snd (req : HttpRequest) (key : Bytes) :
    (req.header key).2 = req.ensureHeadersParsed := rfl

@[simp] theorem headerValue_ensureHeadersParsed (req : HttpRequest) (key : Bytes) :
    req.ensureHeadersParsed.headerValue key = req.headerValue key := by
  simp [headerValue, header]

end HttpRequest

/-! ### `WebSocketHandshake` -/

namespace WebSocketHandshake

/-- `WebSocketHandshake::isUpgradeRequest`. -/
def isUpgradeRequest (req : HttpRequest) : Bool :=
  let (upgrade, req) := req.header (ascii "Upgrade")
  if upgrade = [] then false
  else
    let (connection, req) := req.header (ascii "Connection")
    if connection = [] then false
    else
      let (key, _) := req.header (ascii "Sec-WebSocket-Key")
      if key = [] then false
      else
        decide (upgrade.map toLower = ascii "websocket") &&
          decide (ascii "upgrade" <:+: connection.map toLower)

/-- `WebSocketHandshake::computeAccept`. -/
def computeAccept (key : Bytes) : Bytes :=
  base64Encode (sha1 (key ++ WebSocketUpgradeHandler.magicGuid))

/-- `WebSocketHandshake::createResponse`. -/
def createResponse (req : HttpRequest) : HttpResponse :=
  let (key, _) := req.header (ascii "Sec-WebSocket-Key")
  (((({} : HttpResponse).setStatus .switchingProtocols).setHeader
    (ascii "Upgrade") (ascii "websocket")).setHeader
    (ascii "Connection") (ascii "Upgrade")).setHeader
    (ascii "Sec-WebSocket-Accept") (computeAccept key)

end WebSocketHandshake

namespace HttpRequest

variable (req : HttpRequest)

/-- `Upgrade` names the WebSocket protocol, in some spelling. -/
def UpgradesToWebSocket : Prop :=
  (req.headerValue (ascii "Upgrade")).map toLower = ascii "websocket"

/-- `Upgrade` has one of the spellings that the handler knows. -/
def SpelledAsUsual : Prop :=
  req.headerValue (ascii "Upgrade") = ascii "websocket" ∨
    req.headerValue (ascii "Upgrade") = ascii "WebSocket"

/-- `upgrade` is somewhere in the value of `Connection`. -/
def ConnectionUpgrades : Prop :=
  ascii "upgrade" <:+: (req.headerValue (ascii "Connection")).map toLower

/-- There is a key. -/
def HasKey : Prop := req.headerValue (ascii "Sec-WebSocket-Key") ≠ []

instance : Decidable req.UpgradesToWebSocket := inferInstanceAs (Decidable (_ = _))
instance : Decidable req.SpelledAsUsual := inferInstanceAs (Decidable (_ ∨ _))
instance : Decidable req.ConnectionUpgrades := inferInstanceAs (Decidable (_ <:+: _))
instance : Decidable req.HasKey := inferInstanceAs (Decidable (_ ≠ _))

variable {req}

/-- Both spellings name the protocol. -/
theorem UpgradesToWebSocket.of_spelled (h : req.SpelledAsUsual) : req.UpgradesToWebSocket := by
  unfold UpgradesToWebSocket
  rcases h with h | h
  · rw [h]
    decide
  · rw [h]
    decide

end HttpRequest

/-- The test, without the values that cannot be empty. -/
theorem WebSocketHandshake.isUpgradeRequest_iff (req : HttpRequest) :
    isUpgradeRequest req = true ↔
      req.UpgradesToWebSocket ∧ req.ConnectionUpgrades ∧ req.HasKey := by
  have hupgrade (h : req.UpgradesToWebSocket) : req.headerValue (ascii "Upgrade") ≠ [] := by
    intro hnil
    rw [HttpRequest.UpgradesToWebSocket, hnil] at h
    exact absurd h (by decide)
  have hconnection (h : req.ConnectionUpgrades) : req.headerValue (ascii "Connection") ≠ [] := by
    intro hnil
    rw [HttpRequest.ConnectionUpgrades, hnil] at h
    exact absurd h (by decide)
  constructor
  · intro h
    simp only [isUpgradeRequest, HttpRequest.header_fst, HttpRequest.header_snd,
      HttpRequest.headerValue_ensureHeadersParsed] at h
    split_ifs at h with h₁ h₂ h₃
    have h := Bool.and_eq_true_iff.mp h
    exact ⟨of_decide_eq_true h.1, of_decide_eq_true h.2, h₃⟩
  · intro ⟨hup, hconn, hkey⟩
    simp only [isUpgradeRequest, HttpRequest.header_fst, HttpRequest.header_snd,
      HttpRequest.headerValue_ensureHeadersParsed]
    rw [if_neg (hupgrade hup), if_neg (hconnection hconn), if_neg hkey]
    exact Bool.and_eq_true_iff.mpr ⟨decide_eq_true hup, decide_eq_true hconn⟩

/-! ### The handler -/

namespace WebSocketUpgradeHandler

variable {handler : WebSocketUpgradeHandler} {req : HttpRequest}

/-- The only response is the answer to an upgrade request in a known spelling. -/
theorem mem_responses_channelRead (huri : req.uri = handler.path) (resp : HttpResponse) :
    resp ∈ responses (handler.channelRead (.request req)) ↔
      (req.SpelledAsUsual ∧ req.HasKey) ∧
        resp = switchProtocols (req.headerValue (ascii "Sec-WebSocket-Key"))
          (req.headerValue (ascii "Sec-WebSocket-Protocol")) := by
  unfold HttpRequest.SpelledAsUsual HttpRequest.HasKey
  simp only [channelRead, HttpRequest.header_fst, HttpRequest.header_snd,
    HttpRequest.headerValue_ensureHeadersParsed]
  rw [if_neg (not_and_of_not_right _ (not_not_intro huri))]
  split_ifs with hspelled hkey
  · have hnone : ¬ (req.headerValue (ascii "Upgrade") = ascii "websocket" ∨
        req.headerValue (ascii "Upgrade") = ascii "WebSocket") := not_or.mpr hspelled
    simp [responses, hnone]
  · simp [responses, hkey]
  · have hsome : req.headerValue (ascii "Upgrade") = ascii "websocket" ∨
        req.headerValue (ascii "Upgrade") = ascii "WebSocket" := by
      by_contra hnone
      exact hspelled (not_or.mp hnone)
    simp [responses, hsome, hkey]

@[simp] theorem status_switchProtocols (key proto : Bytes) :
    (switchProtocols key proto).status = .switchingProtocols := by
  unfold switchProtocols
  extract_lets resp
  split_ifs <;> rfl

theorem answers_iff_spelled (huri : req.uri = handler.path) :
    (∃ resp ∈ responses (handler.channelRead (.request req)),
      resp.status = .switchingProtocols) ↔ req.SpelledAsUsual ∧ req.HasKey := by
  constructor
  · intro ⟨resp, hmem, _⟩
    exact ((mem_responses_channelRead huri resp).mp hmem).1
  · intro h
    exact ⟨_, (mem_responses_channelRead huri _).mpr ⟨h, rfl⟩, status_switchProtocols _ _⟩

/-- The value of a response's `Sec-WebSocket-Accept`. -/
def acceptOf (resp : HttpResponse) : Option Bytes :=
  (resp.headers.find? fun kv => decide (kv.1 = ascii "Sec-WebSocket-Accept")).map Prod.snd

/-- The handler answers 101 exactly to what the test accepts, and what it answers carries the
key that the other answer carries. -/
def Agrees (handler : WebSocketUpgradeHandler) (req : HttpRequest) : Prop :=
  ((∃ resp ∈ responses (handler.channelRead (.request req)),
      resp.status = .switchingProtocols) ↔ WebSocketHandshake.isUpgradeRequest req = true) ∧
    ∀ resp ∈ responses (handler.channelRead (.request req)),
      acceptOf resp = acceptOf (WebSocketHandshake.createResponse req)

theorem acceptOf_switchProtocols (key proto : Bytes) :
    acceptOf (switchProtocols key proto) = some (computeAcceptKey key) := by
  have hnames : ascii "Upgrade" ≠ ascii "Sec-WebSocket-Accept" ∧
      ascii "Connection" ≠ ascii "Sec-WebSocket-Accept" ∧
      ascii "Upgrade" ≠ ascii "Connection" := by decide
  unfold switchProtocols
  extract_lets resp
  have hresp : resp.headers = [(ascii "Upgrade", ascii "websocket"),
      (ascii "Connection", ascii "Upgrade"),
      (ascii "Sec-WebSocket-Accept", computeAcceptKey key)] := by
    simp [resp, HttpResponse.setHeader, HttpResponse.setStatus, putHeader, hnames]
  have hput (value : Bytes) : acceptOf (resp.setHeader (ascii "Sec-WebSocket-Protocol") value) =
      acceptOf resp := by
    have hproto : ascii "Upgrade" ≠ ascii "Sec-WebSocket-Protocol" ∧
        ascii "Connection" ≠ ascii "Sec-WebSocket-Protocol" ∧
        ascii "Sec-WebSocket-Accept" ≠ ascii "Sec-WebSocket-Protocol" := by decide
    simp [acceptOf, HttpResponse.setHeader, hresp, putHeader, hproto, hnames]
  split_ifs
  · simp [acceptOf, hresp, hnames]
  · rw [hput]
    simp [acceptOf, hresp, hnames]

/-- The two answers are the same one, but for the protocol. -/
theorem createResponse_eq (req : HttpRequest) :
    WebSocketHandshake.createResponse req =
      switchProtocols (req.headerValue (ascii "Sec-WebSocket-Key")) [] := rfl

/-- The tests agree where there is no key, where another protocol is asked for, and else where
the spelling is a usual one exactly if `Connection` asks for an upgrade. -/
theorem agrees_iff (huri : req.uri = handler.path) :
    Agrees handler req ↔
      (req.HasKey → req.UpgradesToWebSocket →
        (req.SpelledAsUsual ↔ req.ConnectionUpgrades)) := by
  have haccept : ∀ resp ∈ responses (handler.channelRead (.request req)),
      acceptOf resp = acceptOf (WebSocketHandshake.createResponse req) := by
    intro resp hmem
    rw [((mem_responses_channelRead huri resp).mp hmem).2, createResponse_eq,
      acceptOf_switchProtocols, acceptOf_switchProtocols]
  have hanswers := answers_iff_spelled huri
  have hspelled := @HttpRequest.UpgradesToWebSocket.of_spelled req
  have htest := WebSocketHandshake.isUpgradeRequest_iff req
  unfold Agrees
  grind

/-- A request with the three header fields of an upgrade, in this spelling. -/
def upgradeRequest (upgrade : String) (connection : List String) : HttpRequest where
  uri := ascii "/ws"
  path := ascii "/ws"
  headersParsed := true
  headers := (ascii "Upgrade", ascii upgrade) ::
    (connection.map fun value => (ascii "Connection", ascii value)) ++
    [(ascii "Sec-WebSocket-Key", ascii "dGhlIHNhbXBsZSBub25jZQ==")]

theorem agrees_upgradeRequest :
    Agrees ⟨ascii "/ws"⟩ (upgradeRequest "WebSocket" ["keep-alive, Upgrade"]) :=
  (agrees_iff rfl).mpr fun _ _ => iff_of_true (by decide +kernel) (by decide +kernel)

/-- Without `Connection` the handler answers all the same, and a third spelling of `websocket` is
passed on. -/
theorem not_agrees_upgradeRequest :
    ¬ Agrees ⟨ascii "/ws"⟩ (upgradeRequest "websocket" []) ∧
      ¬ Agrees ⟨ascii "/ws"⟩ (upgradeRequest "WEBSOCKET" ["Upgrade"]) := by
  constructor
  · intro h
    have hagree := h.1
    rw [answers_iff_spelled rfl] at hagree
    exact absurd (hagree.mp (by decide +kernel)) (by decide +kernel)
  · intro h
    have hagree := h.1
    rw [answers_iff_spelled rfl] at hagree
    exact absurd (hagree.mpr (by decide +kernel)) (by decide +kernel)

end WebSocketUpgradeHandler

end XNetty
