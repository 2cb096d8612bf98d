import XNetty.Http.Response
import XNetty.Channel.Message

/-!
# The outbound halves of the HTTP handlers

What `HttpServerCodec` and `CompressorHandler` make of a message on its way out. Both write one
message for each message written to them.

## Main definitions

* `HttpServerCodec.write` — a response becomes its text.
* `CompressorHandler.write` — a response becomes the text of the compressed response.
-/

namespace XNetty

/-- `HttpServerCodec::write`. -/
def HttpServerCodec.write : Msg → Msg
  | .response resp => .buffer resp.toByteBuf
  | msg => msg

inductive ContentEncoding where
  | gzip
  | deflate
  deriving DecidableEq

namespace CompressorHandler

structure PeerState where
  supportsCompression : Bool := false
  encoding : ContentEncoding := .gzip
  deriving DecidableEq

/-- What `channelRead` notes of a request with this `Accept-Encoding`. -/
def notePeer (p : PeerState) (ae : Bytes) : PeerState :=
  if ascii "gzip" <:+: ae then { supportsCompression := true, encoding := .gzip }
  else if ascii "deflate" <:+: ae then { supportsCompression := true, encoding := .deflate }
  else { p with supportsCompression := false }

variable (compress : ContentEncoding → Bytes → Bytes)

def compressAndForward (enc : ContentEncoding) (encName : Bytes) : Msg → Msg
  | .response resp =>
    if resp.body = [] then .response resp
    else
      let resp := resp.setContent (compress enc resp.body)
      let resp := resp.setHeader (ascii "Content-Encoding") encName
      .buffer resp.toByteBuf
  | msg => msg

/-- `CompressorHandler::write`. -/
def write (p : PeerState) (msg : Msg) : Msg :=
  if !p.supportsCompression then msg
  else
    let encName := if p.encoding = .gzip then ascii "gzip" else ascii "deflate"
    compressAndForward compress p.encoding encName msg

end CompressorHandler

/-! ## Frames pass, and nothing becomes one -/

def Msg.isFrame : Msg → Bool
  | .frame _ => true
  | _ => false

@[simp] theorem HttpServerCodec.write_frame (f : WebSocketFrame) :
    write (.frame f) = .frame f := rfl

@[simp] theorem HttpServerCodec.isFrame_write (msg : Msg) : (write msg).isFrame = msg.isFrame := by
  cases msg <;> rfl

@[simp] theorem CompressorHandler.write_frame (compress : ContentEncoding → Bytes → Bytes)
    (p : PeerState) (f : WebSocketFrame) : write compress p (.frame f) = .frame f := by
  unfold write
  split <;> rfl

@[simp] theorem CompressorHandler.isFrame_write (compress : ContentEncoding → Bytes → Bytes)
    (p : PeerState) (msg : Msg) : (write compress p msg).isFrame = msg.isFrame := by
  unfold write
  split
  · rfl
  cases msg with
  | response resp =>
    dsimp only [compressAndForward]
    split <;> rfl
  | _ => rfl

end XNetty
