import XNetty.Channel.Connection
import XNetty.Lib.Reentrant
import XNetty.WebSocket.TopicTree

/-!
# The worker loop

A worker owns connections. Each of its functions is cut where handlers or other outside code
run: what is left to do is a frame on the control stack. Outside code may call any `Context`,
of the connection it serves or of another. The clocks are left to the environment, which names
the connections that timed out, and so are the results of `read`; those of `write` come from
the connection's socket. `pendingFlush_` is never filled, so `flushPending` has nothing to do.

## Main definitions

* `Conn` — a connection with its channel, and the log of what its handlers saw and of the
  system calls made for it.
* `Frame` — the worker's functions at the places where they can be resumed.
* `Api` — what outside code may call.
* `worker` — the code of the machine.
-/

namespace XNetty.Event

open Reentrant WebSocket

/-- An entry of a pipeline. -/
structure HandlerEntry where
  inbound : Bool := true
  /-- The handler is a `WebSocketHandler`. -/
  webSocket : Bool := false
  deriving DecidableEq

inductive LifeEvent where
  | registered
  | active
  | read
  | readComplete
  | inactive
  | unregistered
  | removed
  deriving DecidableEq

/-- `onActive`, `onInactive` and `handlerRemoved` reach every handler, the rest inbound ones. -/
def LifeEvent.reaches (ev : LifeEvent) (h : HandlerEntry) : Bool :=
  h.inbound || ev = .active || ev = .inactive || ev = .removed

inductive Syscall where
  | read
  | write
  | writev
  | getpeername
  | pollerAdd
  | pollerDel
  | close
  deriving DecidableEq

/-- Handler `i` of the pipeline sees an event, or a system call is made with a descriptor
number, `none` standing for `-1`. -/
inductive LogEntry where
  | life (handler : ℕ) (event : LifeEvent)
  | sys (call : Syscall) (fd : Option ℕ)
  deriving DecidableEq

inductive Stage where
  | unborn
  | alive
  | destroyed
  deriving DecidableEq

/-- The `Subscriber` of a `WebSocket`, with the names of its topics. -/
structure Subscription where
  address : SubscriberPtr
  topics : List Bytes := []

structure Conn extends Connection where
  stage : Stage := .unborn
  /-- `channel().fd()` -/
  fd : Option ℕ := none
  handlers : List HandlerEntry := []
  /-- `handlers_.clear()` has run. -/
  cleared : Bool := false
  /-- The connection is in the worker's `connections_`. -/
  listed : Bool := false
  /-- The weak pointers to the worker can be locked. -/
  loopAlive : Bool := true
  /-- `sub_` of the connection's `WebSocket` -/
  sub : Option Subscription := none
  log : List LogEntry := []

/-- What `read` returns. -/
inductive ReadResult where
  | data
  | eof
  | again
  | fail
  deriving DecidableEq

/-- Where a function of the worker can be resumed. -/
inductive Frame where
  /-- `setupConnection` up to `fireChannelRegistered` -/
  | setup (fd : ℕ) (handlers : List HandlerEntry) (waterMark : ℕ)
  /-- its `fireActive` -/
  | activate
  /-- its `addConnection` -/
  | add
  | onRead (n : ReadResult)
  /-- the test at the end of `onRead` -/
  | checkClosed
  | onWrite
  | onError
  /-- one round of the second loop of `onTimerTick` -/
  | timeout
  | removeConn
  /-- `removeConn` after `fireChannelUnregistered` -/
  | closeChannel
  /-- a loop that calls the handlers, at handler `i` -/
  | deliver (event : LifeEvent) (i : ℕ)
  /-- the worker's destructor gives up its connection -/
  | workerGone
  /-- the last reference to the connection goes -/
  | release
  deriving DecidableEq

namespace Conn

def note (c : Conn) (entries : List LogEntry) : Conn := { c with log := c.log ++ entries }

/-- System calls made with the descriptor of the channel. -/
def sys (c : Conn) (calls : List Syscall) : Conn := c.note (calls.map fun call => .sys call c.fd)

def pipeline (c : Conn) : List HandlerEntry := if c.cleared then [] else c.handlers

/-! ### Sending -/

/-- The system calls of `flushWriteBuf`. -/
def flushCalls (c : Connection) : List Syscall :=
  if c.writeBuf.readableBytes = 0 then []
  else
    match (c.socket.write c.writeBuf.readable).1 with
    | .again => [.writev, .pollerAdd]
    | .fail | .count 0 => [.writev]
    | .count n => if n < c.writeBuf.readableBytes then [.writev, .pollerAdd] else [.writev]

/-- `WorkerEventLoop::flushWriteBuf`. With descriptor `-1` the call fails, and the channel
has no interest left to update. -/
def flushWriteBuf (c : Conn) : Conn :=
  match c.fd with
  | some _ =>
    { c.sys (flushCalls c.toConnection) with toConnection := c.toConnection.flushWriteBuf }
  | none => if c.writeBuf.readableBytes = 0 then c else { c.sys [.writev] with closed := true }

/-- `Context::flush` -/
def flush (c : Conn) : Conn :=
  if c.stage = .alive ∧ c.loopAlive then c.flushWriteBuf else c

/-- `Context::close` -/
def close (c : Conn) : Conn × List (Item Frame) :=
  if c.stage = .alive ∧ ¬ c.closed then
    ({ c with closed := true }, [.frame (.deliver .inactive 0)])
  else (c, [])

/-- `ChannelHandlerContext::fireWrite` of a `ByteBuf*` at index 0 -/
def fireWrite (c : Conn) (buf : ByteBuf) : Conn × List (Item Frame) :=
  if c.stage = .alive then
    let c := { c with writeBuf := c.writeBuf.writeBytes buf.readable }
    if c.isWriteBufOverflow then c.close else (c.flush, [])
  else (c, [])

/-- The system calls of the loop in `onWrite`. -/
def writeCalls : ℕ → Connection → List Syscall
  | 0, _ => [.pollerAdd]
  | fuel + 1, c =>
    if c.writeBuf.readableBytes = 0 then [.pollerAdd]
    else
      let (n, socket) := c.socket.write c.writeBuf.readable
      match n with
      | .again | .fail | .count 0 => [.write]
      | .count written =>
        .write :: writeCalls fuel { c with socket, writeBuf := c.writeBuf.discard written }

/-! ### WebSockets -/

/-- The connection has a `WebSocket`, which its `WebSocketHandler` makes. -/
def hasWebSocket (c : Conn) : Bool := c.handlers.any HandlerEntry.webSocket

/-- `WebSocket::subscribe`, with the cell of a new subscriber -/
def subscribe (c : Conn) (topic : Bytes) (address : SubscriberPtr) : Conn :=
  if c.hasWebSocket then
    let sub := c.sub.getD { address }
    { c with sub := some { sub with topics := sub.topics.insert topic } }
  else c

/-- `WebSocket::unsubscribe` -/
def unsubscribe (c : Conn) (topic : Bytes) : Conn :=
  { c with sub := c.sub.map fun sub => { sub with topics := sub.topics.erase topic } }

/-- `sTopicTree.freeSubscriber(std::move(sub_))` -/
def freeSubscriber (c : Conn) : Conn := { c with sub := none }

/-! ### Handlers -/

/-- A handler sees an event. `WebSocketHandler` frees the subscriber on `channelInactive`. -/
def visit (c : Conn) (ev : LifeEvent) (i : ℕ) (h : HandlerEntry) : Conn :=
  let c := if h.inbound || ev = .removed then c.note [.life i ev] else c
  if h.webSocket && ev = .inactive then c.freeSubscriber else c

/-- The first inbound handler from index `i` on. -/
def nextInbound (handlers : List HandlerEntry) (i : ℕ) : Option ℕ :=
  ((handlers.drop i).findIdx? HandlerEntry.inbound).map (i + ·)

/-- `fireReadFrom`, and `forNextInbound` for the other events -/
def fireNext (c : Conn) (ev : LifeEvent) (i : ℕ) : Conn × List (Item Frame) :=
  match nextInbound c.pipeline i with
  | none => (c, [])
  | some j =>
    match c.pipeline[j]? with
    | none => (c, [])
    | some h => (c.visit ev j h, [.outside true])

/-! ### The worker's functions -/

/-- The worker can still be reached, and `ch->context()` is a connection that is not closed. -/
def serves (c : Conn) : Bool := c.loopAlive && c.stage = .alive && !c.closed

def setupConnection (c : Conn) (fd : ℕ) (handlers : List HandlerEntry) (waterMark : ℕ) :
    Conn × List (Item Frame) :=
  if c.stage = .unborn then
    (({ c with stage := .alive, fd := some fd, handlers, writeBufWaterMark := waterMark }).sys
      [.pollerAdd], [.frame (.deliver .registered 0), .frame .activate])
  else (c, [])

def onRead (c : Conn) (n : ReadResult) : Conn × List (Item Frame) :=
  if c.serves then
    let c := c.sys [.read]
    match n with
    | .data =>
      let (c, items) := c.fireNext .read 0
      (c, items ++ [.frame (.deliver .readComplete 0), .frame .checkClosed])
    | .eof | .fail =>
      ({ c with closed := true }, [.frame (.deliver .inactive 0), .frame .removeConn])
    | .again => (c, [])
  else (c, [])

def onWrite (c : Conn) : Conn :=
  if c.serves then
    { c.sys (writeCalls c.writeBuf.readableBytes c.toConnection) with
      toConnection := c.toConnection.onWrite }
  else c

def onError (c : Conn) : Conn × List (Item Frame) :=
  if c.serves then
    ({ c with closed := true }, [.frame (.deliver .inactive 0), .frame .removeConn])
  else (c, [])

def timeout (c : Conn) : Conn × List (Item Frame) :=
  ({ c with closed := true }, [.frame (.deliver .inactive 0), .frame .removeConn])

def removeConn (c : Conn) : Conn × List (Item Frame) :=
  if c.listed then (c, [.frame (.deliver .unregistered 0), .frame .closeChannel]) else (c, [])

/-- `disableAll`, `remove`, `close` and `setFd(-1)`, then the entry of `connections_` goes. -/
def closeChannel (c : Conn) : Conn × List (Item Frame) :=
  let c := if c.fd.isSome then { c.sys [.pollerDel, .pollerDel, .close] with fd := none } else c
  ({ c with listed := false }, [.frame (.deliver .removed 0)])

/-- One round of a loop over the handlers. `handlerRemoved` is called without a guard, and
`pipeline().clear()` ends by emptying the pipeline. -/
def deliver (c : Conn) (ev : LifeEvent) (i : ℕ) : Conn × List (Item Frame) :=
  match c.pipeline[i]? with
  | none => (if ev = .removed then { c with cleared := true } else c, [])
  | some h =>
    if ev.reaches h then
      (c.visit ev i h, [.outside (ev ≠ .removed), .frame (.deliver ev (i + 1))])
    else (c, [.frame (.deliver ev (i + 1))])

/-- `~Channel` with the connection it belongs to -/
def release (c : Conn) : Conn :=
  if c.stage = .alive ∧ ¬ c.listed then
    let c := { c with stage := .destroyed }
    if c.fd.isSome then
      { c.sys ((if c.loopAlive then [.pollerDel] else []) ++ [.close]) with fd := none }
    else c
  else c

/-- `Context::peerAddress` -/
def peerAddress (c : Conn) : Conn :=
  if c.stage = .alive ∧ c.fd.isSome then c.sys [.getpeername] else c

def setKeepAlive (c : Conn) (ka : Bool) : Conn :=
  if c.stage = .alive then { c with keepAlive := ka } else c

end Conn

/-- What outside code may call on a connection. A topic is subscribed to with the cells the
allocator returns, for a new subscriber and for a new topic. -/
inductive Api where
  | close
  | flush
  | fireWrite (buf : ByteBuf)
  | setKeepAlive (ka : Bool)
  | peerAddress
  /-- `ctx->fireRead` and the like from handler `i`; there is none for `handlerRemoved` -/
  | fire (event : LifeEvent) (i : ℕ)
  /-- `WebSocket::subscribe` -/
  | subscribe (topic : Bytes) (address : SubscriberPtr) (cell : TopicPtr)
  /-- `WebSocket::unsubscribe` -/
  | unsubscribe (topic : Bytes)
  /-- the `CLOSE` branch of `WebSocketHandler::channelRead`, and `WebSocket::close` -/
  | freeSubscriber

inductive WorkerEvent (ι : Type*) where
  /-- the functor that sets an accepted connection up -/
  | accept (c : ι) (fd : ℕ) (handlers : List HandlerEntry) (waterMark : ℕ)
  | poll (c : ι) (read : Option ReadResult) (write error : Bool)
  /-- `onTimerTick`, with the connections found to have timed out -/
  | tick (timedOut : List ι)
  /-- a callback of the timer wheel, or a queued functor -/
  | callback
  | workerGone (c : ι)
  | release (c : ι)

/-- A worker with its connections. -/
def worker (ι : Type*) [DecidableEq ι] : Code ι Conn Frame Api (WorkerEvent ι) where
  go
    | .setup fd handlers waterMark, c => c.setupConnection fd handlers waterMark
    | .activate, c => (c, [.frame (.deliver .active 0), .frame .add])
    | .add, c => ({ c with listed := true }, [])
    | .onRead n, c => c.onRead n
    | .checkClosed, c => (c, if c.closed then [.frame .removeConn] else [])
    | .onWrite, c => (c.onWrite, [])
    | .onError, c => c.onError
    | .timeout, c => c.timeout
    | .removeConn, c => c.removeConn
    | .closeChannel, c => c.closeChannel
    | .deliver ev i, c => c.deliver ev i
    | .workerGone, c => ({ c with listed := false, loopAlive := false }, [])
    | .release, c => (c.release, [])
  call
    | .close, c => c.close
    | .flush, c => (c.flush, [])
    | .fireWrite buf, c => c.fireWrite buf
    | .setKeepAlive ka, c => (c.setKeepAlive ka, [])
    | .peerAddress, c => (c.peerAddress, [])
    | .fire ev i, c => if ev = .removed then (c, []) else c.fireNext ev (i + 1)
    | .subscribe topic address _, c => (c.subscribe topic address, [])
    | .unsubscribe topic, c => (c.unsubscribe topic, [])
    | .freeSubscriber, c => (c.freeSubscriber, [])
  start
    | .accept c fd handlers waterMark, _ => [.frame c (.setup fd handlers waterMark)]
    | .poll c read write error, _ =>
      (read.map fun n => .frame c (.onRead n)).toList ++
        (if write then [.frame c .onWrite] else []) ++ if error then [.frame c .onError] else []
    | .tick timedOut, objects =>
      (timedOut.dedup.filter fun c => (objects c).listed && !(objects c).closed).map
        fun c => .frame c .timeout
    | .callback, _ => [.outside false]
    | .workerGone c, _ => [.frame c .workerGone]
    | .release c, _ => [.frame c .release]

/-- A worker before its first connection, with the sockets its connections will have. -/
def newWorker {ι : Type*} (sockets : ι → Socket) : Machine ι Conn Frame where
  objects i := { socket := sockets i }

end XNetty.Event
