import XNetty.Http.Codec
import XNetty.Util.Base64
import XNetty.Util.Sha1
import XNetty.WebSocket.Codec

/-!
# The WebSocket upgrade

`WebSocketUpgradeHandler` stands between the HTTP codec and the WebSocket codec. It answers
upgrade requests itself and passes on everything else, so that after the upgrade the two
codecs work on the same bytes.

## Main definitions

* `WebSocketUpgradeHandler.channelRead` — the handler.
* `UpgradePipeline.read`, `UpgradePipeline.readAll` — buffers passing the three handlers.
-/

namespace XNetty

/-- The handler with its path. -/
structure WebSocketUpgradeHandler where
  path : Bytes
  deriving DecidableEq

namespace WebSocketUpgradeHandler

/-- `WebSocketHandshake::kMagicGUID`. -/
def magicGuid : Bytes := ascii "258EAFA5-E914-47DA-95CA-C5AB0DC85B11"

def computeAcceptKey (key : Bytes) : Bytes := base64Encode (sha1 (key ++ magicGuid))

theorem length_computeAcceptKey (key : Bytes) : (computeAcceptKey key).length = 28 := by
  simp [computeAcceptKey]

/-- One of `" \t\r\n"`. -/
def isPathBlank (c : UInt8) : Bool := c = 32 ∨ c = 9 ∨ c = 13 ∨ c = 10

/-- The constructor: the path without surrounding blanks, `/` where nothing is left. -/
def create (path : Bytes) : WebSocketUpgradeHandler :=
  match ((path.dropWhile isPathBlank).reverse.dropWhile isPathBlank).reverse with
  | [] => ⟨[47]⟩
  | path => ⟨path⟩

/-- The answer to an upgrade request. -/
def switchProtocols (key proto : Bytes) : HttpResponse :=
  let resp := (((({} : HttpResponse).setStatus .switchingProtocols).setHeader
    (ascii "Upgrade") (ascii "websocket")).setHeader
    (ascii "Connection") (ascii "Upgrade")).setHeader
    (ascii "Sec-WebSocket-Accept") (computeAcceptKey key)
  if proto = [] then resp else resp.setHeader (ascii "Sec-WebSocket-Protocol") proto

/-- `WebSocketUpgradeHandler::channelRead`. -/
def channelRead (handler : WebSocketUpgradeHandler) : Msg → List Action
  | .request req =>
    if handler.path ≠ [] ∧ req.uri ≠ handler.path then [.fireRead (.request req)]
    else
      let (upgrade, req) := req.header (ascii "Upgrade")
      if upgrade ≠ ascii "websocket" ∧ upgrade ≠ ascii "WebSocket" then [.fireRead (.request req)]
      else
        let (key, req) := req.header (ascii "Sec-WebSocket-Key")
        if key = [] then [.fireRead (.request req)]
        else
          let (proto, _) := req.header (ascii "Sec-WebSocket-Protocol")
          [.setConnKeepAlive true, .writeAndFlush (switchProtocols key proto)]
  | msg => [.fireRead msg]

/-- Buffers come out of buffers only. -/
theorem channelRead_quiet (handler : WebSocketUpgradeHandler) {m : Msg} {buf : ByteBuf}
    (hm : m ≠ .buffer buf) : .fireRead (.buffer buf) ∉ handler.channelRead m := by
  cases m with
  | request req =>
    simp only [channelRead]
    split_ifs <;> simp
  | buffer buf' => simpa [channelRead, eq_comm] using hm
  | response resp => simp [channelRead]
  | frame f => simp [channelRead]

end WebSocketUpgradeHandler

/-! ## The pipeline -/

/-- `HttpServerCodec`, `WebSocketUpgradeHandler`, `WebSocketCodec`. -/
structure UpgradePipeline where
  http : HttpServerCodec
  upgrade : WebSocketUpgradeHandler

namespace UpgradePipeline

/-- What a connection's handlers remember. -/
structure State where
  http : HttpServerCodec.CodecState := .fresh
  ws : WebSocketCodec.CodecState := .fresh

/-- One call of a handler passes its messages on; what it does besides goes to the
connection. -/
def passOn (handler : Msg → List Action) (actions : List Action) : List Action :=
  actions.flatMap fun
    | .fireRead m => handler m
    | action => [action]

/-- Messages that reach the WebSocket codec, one after the other. -/
def wsReadAll (st : WebSocketCodec.CodecState) : List Msg → WebSocketCodec.CodecState × List Msg
  | [] => (st, [])
  | m :: ms =>
    let r := WebSocketCodec.channelRead st m
    let t := wsReadAll r.1 ms
    (t.1, r.2 ++ t.2)

/-- What one read leaves: the state, what the HTTP codec does, what reaches the connection
behind the upgrade handler, and what comes out of the WebSocket codec. -/
structure ReadResult where
  state : State
  httpActions : List Action
  actions : List Action
  delivered : List Msg

variable (pl : UpgradePipeline) (ll : Llhttp)

/-- One arriving buffer. -/
def read (st : State) (buf : ByteBuf) : Option ReadResult :=
  (pl.http.channelRead ll st.http (.buffer buf)).map fun r =>
    let actions := passOn pl.upgrade.channelRead r.2
    let ws := wsReadAll st.ws (firedMessages actions)
    { state := ⟨r.1, ws.1⟩, httpActions := r.2, actions := actions, delivered := ws.2 }

/-- One buffer after the other on one connection. -/
def readAll (st : State) : List ByteBuf → Option (State × List ReadResult)
  | [] => some (st, [])
  | buf :: bufs =>
    match pl.read ll st buf with
    | none => none
    | some r => (readAll r.state bufs).map fun t => (t.1, r :: t.2)

end UpgradePipeline

end XNetty
