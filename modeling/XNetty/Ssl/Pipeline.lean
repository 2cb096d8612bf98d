import XNetty.Http.Outbound
import XNetty.Ssl.Handler
import XNetty.WebSocket.Handler
import XNetty.WebSocket.Output

/-!
# Pipelines behind an SSL handler

A message written by a handler goes through the outbound handlers in front of it, and comes to
the `SslHandler` at the head of the pipeline, which encrypts it: all but a WebSocket frame, which
the WebSocket codec puts into the connection's write buffer itself.

## Main definitions

* `TlsPipeline.fireWriteFrom` — a message on its way to the head.
* `TlsPipeline.run` — anything that happens on the connection, step by step.
* `TlsPipeline.run_appended_eq_drawn_iff` — when nothing but ciphertext is appended.
-/

namespace XNetty

/-- The outbound end of `WebSocketCodec`: the frame goes to the write buffer. -/
def TlsConnection.writeFrame (t : TlsConnection) (frame : WebSocketFrame) : TlsConnection :=
  { t with
    conn := (WebSocketCodec.write t.conn (.frame frame)).1
    appended := t.appended ++ (encodeFrame frame).readable }

namespace TlsPipeline

/-- The handlers that may follow the `SslHandler`. -/
inductive Handler where
  | httpServerCodec
  | compressor
  | webSocketUpgrade
  | webSocketCodec
  | webSocket
  | router
  | staticFile
  deriving DecidableEq

structure State where
  tls : TlsConnection
  peer : CompressorHandler.PeerState := {}

variable (compress : ContentEncoding → Bytes → Bytes)

/-- `ChannelPipeline::fireWriteFrom`: the handlers are those in front of the writing one, the
nearest first. -/
def fireWriteFrom : List Handler → State → Msg → State
  | [], s, msg => { s with tls := s.tls.write msg }
  | .httpServerCodec :: below, s, msg => fireWriteFrom below s (HttpServerCodec.write msg)
  | .compressor :: below, s, msg =>
    fireWriteFrom below s (CompressorHandler.write compress s.peer msg)
  | .webSocketCodec :: _, s, .frame frame => { s with tls := s.tls.writeFrame frame }
  | .webSocketCodec :: below, s, msg => fireWriteFrom below s msg
  | _ :: below, s, msg => fireWriteFrom below s msg

/-- What happens on a connection. A handler writes when a message reaches it, when a timer of its
own runs, when something is published, or when the application does; `index` is its place behind
the `SslHandler`, or their number for a write on the whole pipeline. -/
inductive Op where
  | chunk (enc : ByteBuf)
  | fireWrite (index : ℕ) (msg : Msg)
  /-- A request reaches a `CompressorHandler`. -/
  | request (acceptEncoding : Bytes)
  | flush
  | onWrite
  | close
  | setKeepAlive (ka : Bool)

variable (handlers : List Handler)

def step (s : State) : Op → State
  | .chunk enc => { s with tls := (s.tls.channelRead enc).1 }
  | .fireWrite index msg => fireWriteFrom compress (handlers.take index).reverse s msg
  | .request acceptEncoding => { s with peer := CompressorHandler.notePeer s.peer acceptEncoding }
  | .flush => { s with tls := s.tls.flush }
  | .onWrite => { s with tls := { s.tls with conn := s.tls.conn.onWrite } }
  | .close => { s with tls := s.tls.close }
  | .setKeepAlive ka => { s with tls := { s.tls with conn := s.tls.conn.setKeepAlive ka } }

def run (s : State) (ops : List Op) : State := ops.foldl (step compress handlers) s

/-- A connection before its first byte. -/
def newState (socket : Socket) (writeBufWaterMark : ℕ) (answers : List SslAnswer) : State where
  tls := { conn := { socket, writeBufWaterMark }, ssl := { answers } }

/-- A WebSocket frame is written by a handler with a WebSocket codec in front of it. -/
def WritesFrame : Op → Prop
  | .fireWrite index (.frame _) => .webSocketCodec ∈ handlers.take index
  | _ => False

/-! ## What is appended -/

variable {handlers}

open TlsConnection (Seals steps_seals)

/-- **A message that no WebSocket codec takes** is encrypted, or dropped. -/
theorem fireWriteFrom_seals {below : List Handler} {s : State} {msg : Msg}
    (h : msg.isFrame = true → .webSocketCodec ∉ below) :
    Seals s.tls (fireWriteFrom compress below s msg).tls := by
  induction below generalizing msg with
  | nil => exact steps_seals.write s.tls msg
  | cons k below ih =>
    have htail : msg.isFrame = true → .webSocketCodec ∉ below :=
      fun hframe hmem => h hframe (List.mem_cons_of_mem _ hmem)
    cases k with
    | httpServerCodec => exact ih (by rwa [HttpServerCodec.isFrame_write])
    | compressor => exact ih (by rwa [CompressorHandler.isFrame_write])
    | webSocketCodec =>
      cases msg with
      | frame f => exact absurd List.mem_cons_self (h rfl)
      | _ => exact ih htail
    | _ => exact ih htail

/-- **A frame that a WebSocket codec takes** is appended as it is. -/
theorem fireWriteFrom_frame {below : List Handler} (hcodec : .webSocketCodec ∈ below) (s : State)
    (frame : WebSocketFrame) :
    (fireWriteFrom compress below s (.frame frame)).tls = s.tls.writeFrame frame := by
  induction below with
  | nil => cases hcodec
  | cons k below ih =>
    cases k with
    | webSocketCodec => rfl
    | httpServerCodec => exact ih (by simpa using hcodec)
    | compressor =>
      rw [fireWriteFrom, CompressorHandler.write_frame]
      exact ih (by simpa using hcodec)
    | _ => exact ih (by simpa using hcodec)

/-- A step appends what it draws, unless it writes a frame. -/
theorem step_seals (s : State) {op : Op} (h : ¬ WritesFrame handlers op) :
    Seals s.tls (step compress handlers s op).tls := by
  cases op with
  | chunk enc => exact steps_seals.channelRead s.tls enc
  | fireWrite index msg =>
    refine fireWriteFrom_seals compress fun hframe => ?_
    rw [List.mem_reverse]
    cases msg with
    | frame f => exact h
    | _ => cases hframe
  | _ => exact .of_eq rfl rfl

theorem step_writesFrame (s : State) {op : Op} (h : WritesFrame handlers op) :
    ∃ bytes ≠ [], (step compress handlers s op).tls.appended = s.tls.appended ++ bytes ∧
      (step compress handlers s op).tls.drawn = s.tls.drawn := by
  cases op with
  | fireWrite index msg =>
    cases msg with
    | frame frame =>
      have hwrite := fireWriteFrom_frame compress (List.mem_reverse.mpr h) s frame
      have hwire : (encodeFrame frame).readable ≠ [] := by
        rw [readable_encodeFrame]
        exact frame.wire_ne_nil
      rw [step, hwrite]
      exact ⟨_, hwire, rfl, rfl⟩
    | _ => exact h.elim
  | _ => exact h.elim

/-- More has been appended than drawn. -/
def Leaked (s : State) : Prop := s.tls.drawn.length < s.tls.appended.length

theorem step_leaked {s : State} (h : Leaked s) (op : Op) :
    Leaked (step compress handlers s op) := by
  unfold Leaked at h ⊢
  by_cases hframe : WritesFrame handlers op
  · obtain ⟨bytes, -, happended, hdrawn⟩ := step_writesFrame compress s hframe
    rw [happended, hdrawn, List.length_append]
    omega
  · obtain ⟨bytes, happended, hdrawn⟩ := step_seals compress s hframe
    rw [happended, hdrawn, List.length_append, List.length_append]
    omega

theorem run_leaked {s : State} (h : Leaked s) (ops : List Op) :
    Leaked (run compress handlers s ops) :=
  Ledger.foldl_preserves Leaked (fun _ op hs => step_leaked compress hs op) h ops

theorem run_appended_iff {s : State} (h : s.tls.appended = s.tls.drawn) (ops : List Op) :
    (run compress handlers s ops).tls.appended = (run compress handlers s ops).tls.drawn ↔
      ∀ op ∈ ops, ¬ WritesFrame handlers op := by
  induction ops generalizing s with
  | nil => exact iff_of_true h fun op hop => absurd hop List.not_mem_nil
  | cons op ops ih =>
    have hrun : run compress handlers s (op :: ops) =
        run compress handlers (step compress handlers s op) ops := rfl
    rw [List.forall_mem_cons, hrun]
    by_cases hframe : WritesFrame handlers op
    · -- the frame stays in the count for the rest of the run
      have hleaked : Leaked (step compress handlers s op) := by
        obtain ⟨bytes, hne, happended, hdrawn⟩ := step_writesFrame compress s hframe
        have hpos := List.length_pos_iff.mpr hne
        unfold Leaked
        rw [happended, hdrawn, h, List.length_append]
        omega
      refine iff_of_false (fun heq => ?_) fun hall => hall.1 hframe
      have hend : Leaked (run compress handlers _ ops) := run_leaked compress hleaked ops
      exact hend.ne (congrArg List.length heq.symm)
    · obtain ⟨bytes, happended, hdrawn⟩ := step_seals compress s hframe
      rw [and_iff_right hframe]
      exact ih (by rw [happended, hdrawn, h])

/-- **Only ciphertext.** On a connection whose pipeline is an `SslHandler` and any handlers behind
it, in any order, whatever the library and the socket answer and whatever happens: every byte
appended to the write buffer was read from the outgoing BIO, if and only if no handler writes a
WebSocket frame with a WebSocket codec in front of it. -/
theorem run_appended_eq_drawn_iff (compress : ContentEncoding → Bytes → Bytes)
    (handlers : List Handler) (socket : Socket) (writeBufWaterMark : ℕ) (answers : List SslAnswer)
    (ops : List Op) :
    let s := run compress handlers (newState socket writeBufWaterMark answers) ops
    s.tls.appended = s.tls.drawn ↔ ∀ op ∈ ops, ¬ WritesFrame handlers op :=
  run_appended_iff compress rfl ops

/-! ## A pong -/

/-- The writes of the WebSocket handler at this place. -/
def writesOf (index : ℕ) (effects : List WebSocketHandler.WsEffect) : List Op :=
  effects.filterMap fun
    | .fireWrite frame => some (.fireWrite index (.frame frame))
    | _ => none

def webSocketHandlers : List Handler :=
  [.httpServerCodec, .webSocketUpgrade, .webSocketCodec, .webSocket]

/-- A client completes the handshake and sends a ping: the answer is appended as it is. -/
theorem not_appended_eq_drawn_pong :
    let ping : WebSocketFrame := { opcode := .ping, fin := true, payload := ascii "hi" }
    let effects := ((WebSocketHandler.create 0 10).channelRead {} (.frame ping)).2
    let answers : List SslAnswer := [{ ret := -1, produced := [22, 3, 3] }, { ret := 1 }]
    let s := run (fun _ data => data) webSocketHandlers
      (newState ⟨fun _ => .accept 100, []⟩ 65536 answers)
      (.chunk (.copyOf [22, 3, 1]) :: .chunk (.copyOf [20, 3, 3]) :: writesOf 3 effects)
    s.tls.handshakeDone = true ∧ s.tls.drawn = [22, 3, 3] ∧
      s.tls.appended = [22, 3, 3] ++ [0x8A, 2] ++ ascii "hi" :=
  ⟨rfl, rfl, rfl⟩

end TlsPipeline

end XNetty
