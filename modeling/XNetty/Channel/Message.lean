import XNetty.Http.Request
import XNetty.Http.Response
import XNetty.WebSocket.Frame

/-!
# Pipeline messages

Handlers pass a `std::any` along the pipeline. `Msg` lists what the handlers put in it,
and `Action` what a handler does to its context while it handles one message.
-/

namespace XNetty

/-- The contents of the `std::any` passed between handlers. -/
inductive Msg where
  | buffer (buf : ByteBuf)
  | request (req : HttpRequest)
  | response (resp : HttpResponse)
  | frame (f : WebSocketFrame)

/-- A call a handler makes on its handler context or on the connection's context. -/
inductive Action where
  | fireRead (m : Msg)
  | writeAndFlush (resp : HttpResponse)
  | setConnKeepAlive (ka : Bool)
  | signalActivity

/-- The messages passed on to the next inbound handler. -/
def firedMessages (actions : List Action) : List Msg :=
  actions.filterMap fun
    | .fireRead m => some m
    | _ => none

/-- The responses written. -/
def responses (actions : List Action) : List HttpResponse :=
  actions.filterMap fun
    | .writeAndFlush resp => some resp
    | _ => none

@[simp] theorem firedMessages_nil : firedMessages [] = [] := rfl
@[simp] theorem firedMessages_append (a b : List Action) :
    firedMessages (a ++ b) = firedMessages a ++ firedMessages b :=
  List.filterMap_append

end XNetty
