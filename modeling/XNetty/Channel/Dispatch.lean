import XNetty.Channel.Connection
import XNetty.Lib.Reentrant

/-!
# Events of a pipeline

Every event of a pipeline is handed to its handlers by one of a few loops, and each call of a
handler is guarded: `callH` logs an exception and goes on. What a handler does in its callback is
outside code, which may close the connection, write, fire other events, return or throw. The
connection is closed only by those who close it.

## Main definitions

* `Dispatch.Served.callH`, `Dispatch.Served.forNext`, `Dispatch.Served.forward` — the loops.
* `Dispatch.pipeline` — the code of the machine.
-/

namespace XNetty.Dispatch

open Reentrant

inductive Event where
  | channelRegistered
  | channelUnregistered
  | channelActive
  | channelInactive
  | channelRead
  | channelReadComplete
  | userEventTriggered
  | exceptionCaught
  | write
  | flush
  | close
  deriving DecidableEq

/-- An entry of the pipeline. -/
structure Entry where
  inbound : Bool := true
  outbound : Bool := false
  deriving DecidableEq

/-- The handlers that have a callback for the event. `onActive`, `onInactive` and
`exceptionCaught` are those of `ChannelHandler`. -/
def Event.reaches : Event → Entry → Bool
  | .channelActive | .channelInactive | .exceptionCaught => fun _ => true
  | .write | .flush | .close => Entry.outbound
  | _ => Entry.inbound

/-- A connection with its pipeline. -/
structure Served extends Connection where
  handlers : List Entry := []
  /-- The callbacks that have been called. -/
  seen : List (ℕ × Event) := []

inductive Frame where
  /-- `ChannelPipeline::fireX` -/
  | fire (ev : Event)
  /-- a loop over all handlers, at handler `i` -/
  | all (ev : Event) (i : ℕ)

/-- What a handler may call in its callback. -/
inductive Api where
  /-- `Context::close`, and `ChannelHandlerContext::close` -/
  | close
  /-- `Context::flush`, and `ChannelHandlerContext::flush` -/
  | flush
  /-- `Context::setConnKeepAlive` -/
  | setKeepAlive (ka : Bool)
  /-- `ChannelPipeline::fireX`, and the writing calls of `Context` -/
  | fire (ev : Event)
  /-- `ChannelHandlerContext::fireX` with the context of handler `i`, but for `fireWrite` -/
  | forward (ev : Event) (i : ℕ)
  /-- `ChannelHandlerContext::fireWrite`; `none` is a message that is no `ByteBuf*` -/
  | fireWrite (i : ℕ) (msg : Option ByteBuf)
  /-- a call that edits the pipeline -/
  | edit (handlers : List Entry)

namespace Served

variable (s : Served)

/-- `callH`: handler `i` is called, and an exception that it throws stays in the guard. -/
def callH (ev : Event) (i : ℕ) : Served × List (Item Frame) :=
  ({ s with seen := s.seen ++ [(i, ev)] }, [.outside true])

/-- `forNextInbound` and `fireReadFrom`, and `forNext` for `exceptionCaught`: the first handler from
`start` on that has the callback. -/
def forNext (ev : Event) (start : ℕ) : Served × List (Item Frame) :=
  match (s.handlers.drop start).findIdx? fun e => ev = .exceptionCaught || e.inbound with
  | some k => s.callH ev (start + k)
  | none => (s, [])

/-- `forPrevOutbound` and `fireWriteFrom`: the last of the first `count` handlers that is
outbound. -/
def forPrevOutbound (ev : Event) (count : ℕ) : Served × List (Item Frame) :=
  match (s.handlers.take count).reverse.findIdx? Entry.outbound with
  | some k => s.callH ev (min count s.handlers.length - 1 - k)
  | none => (s, [])

/-- `ChannelPipeline::fireX`. -/
def fire (ev : Event) : Served × List (Item Frame) :=
  match ev with
  | .channelRead => s.forNext .channelRead 0
  | .write | .flush | .close => s.forPrevOutbound ev s.handlers.length
  | _ => (s, [.frame (.all ev 0)])

/-- One round of `forAllInbound`, `forAllActive`, `forAllInactive` and `forAll`. -/
def all (ev : Event) (i : ℕ) : Served × List (Item Frame) :=
  match s.handlers[i]? with
  | none => (s, [])
  | some e =>
    if ev.reaches e then ((s.callH ev i).1, [.outside true, .frame (.all ev (i + 1))])
    else (s, [.frame (.all ev (i + 1))])

/-- `ChannelHandlerContext::fireX` at handler `i`. -/
def forward (ev : Event) (i : ℕ) : Served × List (Item Frame) :=
  match ev with
  | .flush | .close => s.forPrevOutbound ev (i + 1)
  | .write => s.forPrevOutbound ev i
  | _ => s.forNext ev (i + 1)

/-- `Context::close`. -/
def close : Served × List (Item Frame) :=
  if s.closed then (s, [])
  else ({ s with closed := true }, [.frame (.all .channelInactive 0)])

/-- `ChannelHandlerContext::fireWrite`. Behind the first handler a buffer comes to the
connection. -/
def fireWrite (i : ℕ) (msg : Option ByteBuf) : Served × List (Item Frame) :=
  if i = 0 then
    match msg with
    | some buf =>
      let s := { s with writeBuf := s.writeBuf.writeBytes buf.readable }
      if s.isWriteBufOverflow then s.close
      else ({ s with toConnection := s.toConnection.flush }, [])
    | none => (s, [])
  else s.forPrevOutbound .write i

end Served

def pipeline : Code Unit Served Frame Api Event where
  go
    | .fire ev, s => s.fire ev
    | .all ev i, s => s.all ev i
  call
    | .close, s => s.close
    | .flush, s => ({ s with toConnection := s.toConnection.flush }, [])
    | .setKeepAlive ka, s => ({ s with keepAlive := ka }, [])
    | .fire ev, s => s.fire ev
    | .forward ev i, s => s.forward ev i
    | .fireWrite i msg, s => s.fireWrite i msg
    | .edit handlers, s => ({ s with handlers }, [])
  start ev _ := [.frame () (.fire ev)]

end XNetty.Dispatch
