import XNetty.Channel.Message

/-!
# The WebSocket handler

`WebSocketHandler` turns frames into callbacks of the application, answers pings and closes, and
keeps the connection alive with pings of its own, whose timers it keeps in the loop.

## Main definitions

* `WebSocketHandler.channelRead` — the handler.
* `WebSocketHandler.fireTimer` — its two timers.
-/

namespace XNetty

/-- The handler with its times; `0` is no ping. -/
structure WebSocketHandler where
  pingIntervalMs : ℕ := 0
  pongTimeoutMs : ℕ := 10000
  deriving DecidableEq

namespace WebSocketHandler

/-- The constructor, in `unsigned int` arithmetic. -/
def create (pingIntervalSec pongTimeoutSec : ℕ) : WebSocketHandler where
  pingIntervalMs := if pingIntervalSec > 0 then pingIntervalSec * 1000 % 2 ^ 32 else 0
  pongTimeoutMs := pongTimeoutSec * 1000 % 2 ^ 32

/-- The callbacks that the handler gives to timers. -/
inductive TimerTask where
  | ping
  | pongTimeout
  deriving DecidableEq

/-- What the handler does, or has the application do. -/
inductive WsEffect where
  /-- A call on the connection's context by the handlers in front. -/
  | context (a : Action)
  | signalActivity
  | close
  | onOpen
  | onMessage (message : Bytes)
  | onBinary (data : Bytes)
  | onClose (code : ℕ) (reason : Bytes)
  | fireWrite (frame : WebSocketFrame)
  | runAfter (delayMs : ℕ) (task : TimerTask) (timerId : ℕ)
  | cancelTimer (timerId : ℕ)
  /-- `sTopicTree.freeSubscriber` of the connection's subscriber. -/
  | freeSubscriber
  | fireRead (msg : Msg)

structure WsState where
  opened : Bool := false
  waitingPong : Bool := false
  pingTimerId : ℕ := 0
  pongTimerId : ℕ := 0
  deriving DecidableEq

/-- The handler's state on a connection, with the timers of its loop: the id of the next one, and
those of the handler that have neither run nor been cancelled. -/
structure Session where
  ws : WsState := {}
  nextTimerId : ℕ := 0
  timers : List (ℕ × TimerTask) := []

namespace Session

def cancelTimer (s : Session) (timerId : ℕ) : Session :=
  { s with timers := s.timers.filter fun t => t.1 ≠ timerId }

def runAfter (s : Session) (task : TimerTask) : Session :=
  { s with nextTimerId := s.nextTimerId + 1, timers := s.timers ++ [(s.nextTimerId, task)] }

end Session

/-- One thing after the other. -/
def andThen (r : Session × List WsEffect) (f : Session → Session × List WsEffect) :
    Session × List WsEffect :=
  ((f r.1).1, r.2 ++ (f r.1).2)

/-! ## Timers -/

/-- An id of `0` is no timer. -/
def cancelPing (s : Session) : Session × List WsEffect :=
  if s.ws.pingTimerId ≠ 0 then
    ({ s.cancelTimer s.ws.pingTimerId with ws := { s.ws with pingTimerId := 0 } },
      [.cancelTimer s.ws.pingTimerId])
  else (s, [])

def cancelPong (s : Session) : Session × List WsEffect :=
  if s.ws.pongTimerId ≠ 0 then
    ({ s.cancelTimer s.ws.pongTimerId with ws := { s.ws with pongTimerId := 0 } },
      [.cancelTimer s.ws.pongTimerId])
  else (s, [])

def cancelTimers (s : Session) : Session × List WsEffect :=
  andThen (andThen (cancelPing s) cancelPong) fun s =>
    ({ s with ws := { s.ws with waitingPong := false } }, [])

variable (handler : WebSocketHandler)

def schedulePing (s : Session) : Session × List WsEffect :=
  andThen (cancelTimers s) fun s =>
    if handler.pingIntervalMs = 0 then (s, [])
    else
      ({ s.runAfter .ping with ws := { s.ws with pingTimerId := s.nextTimerId } },
        [.runAfter handler.pingIntervalMs .ping s.nextTimerId])

/-- The callback of the ping timer. -/
def pingTimer (s : Session) : Session × List WsEffect :=
  if s.ws.waitingPong then (s, [])
  else
    ({ s.runAfter .pongTimeout with
        ws := { s.ws with waitingPong := true, pingTimerId := 0, pongTimerId := s.nextTimerId } },
      [.fireWrite { opcode := .ping, fin := true }, .signalActivity,
        .runAfter handler.pongTimeoutMs .pongTimeout s.nextTimerId])

def runTask (s : Session) : TimerTask → Session × List WsEffect
  | .ping => handler.pingTimer s
  | .pongTimeout => (s, [.close])

/-- The loop's wheel runs a timer, if there is one of that id. -/
def fireTimer (s : Session) (timerId : ℕ) : Session × List WsEffect :=
  match s.timers.find? fun t => t.1 = timerId with
  | some (_, task) => handler.runTask (s.cancelTimer timerId) task
  | none => (s, [])

/-! ## Messages -/

/-- The answers to a ping and to a close. -/
def pongOf (frame : WebSocketFrame) : WebSocketFrame :=
  { opcode := .pong, fin := true, payload := frame.payload }

def closeRespOf (frame : WebSocketFrame) : WebSocketFrame :=
  { opcode := .close, fin := true, payload := frame.payload }

/-- The part of `channelRead` that only frames reach. -/
def onFrame (s : Session) (frame : WebSocketFrame) : Session × List WsEffect :=
  let ponged :=
    if frame.opcode = .pong then
      andThen (cancelTimers s) fun s =>
        handler.schedulePing { s with ws := { s.ws with waitingPong := false } }
    else (s, [])
  andThen ponged fun s =>
    if frame.opcode = .ping then andThen (s, [.fireWrite (pongOf frame)]) handler.schedulePing
    else if frame.opcode = .text then
      andThen (s, [.onMessage frame.payload]) handler.schedulePing
    else if frame.opcode = .binary then
      andThen (s, [.onBinary frame.payload]) handler.schedulePing
    else if frame.opcode = .close then
      andThen (cancelTimers s) fun s =>
        (s, [.freeSubscriber, .fireWrite (closeRespOf frame), .onClose 0 frame.payload])
    else (s, [])

/-- `WebSocketHandler::channelRead`. The first message of any kind opens the WebSocket. -/
def channelRead (s : Session) (msg : Msg) : Session × List WsEffect :=
  let opened :=
    if !s.ws.opened then
      andThen ({ s with ws := { s.ws with opened := true } }, [.onOpen]) handler.schedulePing
    else (s, [])
  andThen opened fun s =>
    match msg with
    | .frame frame => andThen (s, [.signalActivity]) fun s => handler.onFrame s frame
    | msg => (s, [.fireRead msg])

/-- `WebSocketHandler::channelInactive` -/
def channelInactive (s : Session) : Session × List WsEffect :=
  andThen (cancelTimers s) fun s => (s, [.freeSubscriber])

/-- **The first message** comes behind `onOpen`, whatever it is. -/
theorem channelRead_unopened {s : Session} (h : s.ws.opened = false) (msg : Msg) :
    ∃ later, (handler.channelRead s msg).2 = .onOpen :: later := by
  simp only [channelRead, h, Bool.not_false, if_true, andThen, List.cons_append, List.nil_append]
  exact ⟨_, rfl⟩

end WebSocketHandler

end XNetty
