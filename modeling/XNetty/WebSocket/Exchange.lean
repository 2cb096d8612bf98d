import XNetty.WebSocket.Conversation
import XNetty.WebSocket.Output
import XNetty.WebSocket.Transparency

/-!
# Messages in, frames out

A worker reads what has come on an upgraded connection, the codec cuts it into frames, and the
handler has the application answer them. What is sent goes through the codec again, into the write
buffer of the connection and from there to the socket.

## Main definitions

* `WebSocketApp` — an application by what it sends in its callbacks.
* `WebSocketApp.talk` — what it sends to a peer from whom these messages come.
* `WebSocketExchange` — a connection with the bytes that its peer has yet to send.
* `WebSocketExchange.WritesIdle` — a step that writes no frame while bytes are waiting.
* `WebSocketExchange.run_answered` — the frames written are the answers to what has come, and
  all their bytes are there exactly in the runs whose steps write idle.
* `WebSocketExchange.run_read` — the peer reads back what was written.
-/

namespace XNetty

open Incremental WebSocketFrame WebSocketHandler

instance (f : WebSocketFrame) : Decidable (Taken f) := inferInstanceAs (Decidable (_ ∧ _))

/-! ### Applications -/

/-- The calls with which an application sends on a `WebSocket`. -/
inductive WebSocketSend where
  | send (message : Bytes)
  | sendBinary (data : Bytes)
  | close (code : UInt16) (reason : Bytes)

/-- The frame that the call writes. -/
def WebSocketSend.frame : WebSocketSend → WebSocketFrame
  | .send message => { opcode := .text, fin := true, payload := message }
  | .sendBinary data => { opcode := .binary, fin := true, payload := data }
  | .close code reason => Conversation.closeFrame code reason

/-- The callbacks of an application that subscribes to no topic: its state afterwards, and what it
has sent. -/
structure WebSocketApp (α : Type*) where
  onOpen : α → α × List WebSocketSend
  onMessage : α → Bytes → α × List WebSocketSend
  onBinary : α → Bytes → α × List WebSocketSend
  onClose : α → ℕ → Bytes → α × List WebSocketSend

namespace WebSocketApp

variable {α : Type*} (app : WebSocketApp α)

/-- What is sent to answer a message. -/
def reply (a : α) (frame : WebSocketFrame) : α × List WebSocketFrame :=
  if frame.opcode = .ping then (a, [pongOf frame])
  else if frame.opcode = .text then
    let r := app.onMessage a frame.payload
    (r.1, r.2.map WebSocketSend.frame)
  else if frame.opcode = .binary then
    let r := app.onBinary a frame.payload
    (r.1, r.2.map WebSocketSend.frame)
  else if frame.opcode = .close then
    let r := app.onClose a 0 frame.payload
    (r.1, closeRespOf frame :: r.2.map WebSocketSend.frame)
  else (a, [])

/-- What is sent when the WebSocket opens. -/
def greet (a : α) : α × List WebSocketFrame :=
  let r := app.onOpen a
  (r.1, r.2.map WebSocketSend.frame)

/-- What is sent to a peer from whom these messages come, up to the last of them: the first one
opens the WebSocket. -/
def talk (a : α) (frames : List WebSocketFrame) : α × List WebSocketFrame :=
  frames.foldl (fun t frame =>
    let r := app.reply t.1 frame
    (r.1, t.2 ++ r.2)) (if frames = [] then (a, []) else app.greet a)

end WebSocketApp

/-! ### The connection -/

/-- An upgraded connection of a worker, with the bytes that the peer has yet to send and the frames
that have been written. -/
structure WebSocketExchange (α : Type*) where
  incoming : Bytes
  conn : Connection
  codec : WebSocketCodec.CodecState := .fresh
  session : Session := {}
  app : α
  written : List WebSocketFrame := []

namespace WebSocketExchange

variable {α : Type*} (handler : WebSocketHandler) (app : WebSocketApp α)

/-- A frame on its way out, through `WebSocketCodec::write`. -/
def sendFrame (c : Connection) (frame : WebSocketFrame) : Connection :=
  (WebSocketCodec.write c (.frame frame)).1

def fireWrite (e : WebSocketExchange α) (frame : WebSocketFrame) : WebSocketExchange α :=
  { e with conn := sendFrame e.conn frame, written := e.written ++ [frame] }

/-- A callback of the application. -/
def call (e : WebSocketExchange α) (r : α × List WebSocketSend) : WebSocketExchange α :=
  (r.2.map WebSocketSend.frame).foldl fireWrite { e with app := r.1 }

/-- `Context::close`, of which the handler is told by `channelInactive`. -/
def close (e : WebSocketExchange α) : WebSocketExchange α :=
  if e.conn.closed then e
  else { e with conn := e.conn.close, session := (channelInactive e.session).1 }

/-- One thing that the handler does, or has the application do. -/
def perform (e : WebSocketExchange α) : WsEffect → WebSocketExchange α
  | .fireWrite frame => e.fireWrite frame
  | .onOpen => e.call (app.onOpen e.app)
  | .onMessage message => e.call (app.onMessage e.app message)
  | .onBinary data => e.call (app.onBinary e.app data)
  | .onClose code reason => e.call (app.onClose e.app code reason)
  | .close => e.close
  | _ => e

/-- The handler's state is what it leaves, and it does one thing after the other. -/
def follow (e : WebSocketExchange α) (r : Session × List WsEffect) : WebSocketExchange α :=
  r.2.foldl (perform app) { e with session := r.1 }

def receive (e : WebSocketExchange α) (msg : Msg) : WebSocketExchange α :=
  e.follow app (handler.channelRead e.session msg)

/-- `WorkerEventLoop::onRead`, with so many bytes there. -/
def onRead (e : WebSocketExchange α) (n : ℕ) : WebSocketExchange α :=
  if e.conn.closed = true ∨ e.incoming.take n = [] then e
  else
    let r := WebSocketCodec.channelRead e.codec (.buffer (.copyOf (e.incoming.take n)))
    r.2.foldl (receive handler app) { e with incoming := e.incoming.drop n, codec := r.1 }

inductive Op where
  | onRead (n : ℕ)
  | onWrite
  /-- The loop's wheel runs a timer. -/
  | fireTimer (timerId : ℕ)

def step (e : WebSocketExchange α) : Op → WebSocketExchange α
  | .onRead n => e.onRead handler app n
  | .onWrite => { e with conn := e.conn.onWrite }
  | .fireTimer timerId => e.follow app (handler.fireTimer e.session timerId)

def run (e : WebSocketExchange α) (ops : List Op) : WebSocketExchange α :=
  ops.foldl (step handler app) e

/-- The frames that a step writes. -/
def adds (e : WebSocketExchange α) (op : Op) : List WebSocketFrame :=
  (e.step handler app op).written.drop e.written.length

/-- A frame is written only while nothing is waiting. -/
def WritesIdle (e : WebSocketExchange α) (op : Op) : Prop :=
  Ledger.Along sendFrame (fun c _ => c.writeBuf.readable = []) e.conn (e.adds handler app op)

instance (e : WebSocketExchange α) (op : Op) : Decidable (e.WritesIdle handler app op) :=
  inferInstanceAs (Decidable (Ledger.Along ..))

variable {e : WebSocketExchange α}

/-! ### What a step sends -/

/-- Between the two states nothing happens to the connection but that these frames are sent. -/
structure Sends (e e' : WebSocketExchange α) (frames : List WebSocketFrame) : Prop where
  written : e'.written = e.written ++ frames
  conn : e'.conn = frames.foldl sendFrame e.conn

theorem Sends.refl {e e' : WebSocketExchange α} (hwritten : e'.written = e.written)
    (hconn : e'.conn = e.conn) : Sends e e' [] :=
  ⟨by rw [hwritten, List.append_nil], hconn⟩

theorem Sends.trans {e₁ e₂ e₃ : WebSocketExchange α} {fs gs : List WebSocketFrame}
    (h : Sends e₁ e₂ fs) (h' : Sends e₂ e₃ gs) : Sends e₁ e₃ (fs ++ gs) :=
  ⟨by rw [h'.written, h.written, List.append_assoc], by rw [h'.conn, h.conn, List.foldl_append]⟩

theorem Sends.foldl {ι : Type*} {f : WebSocketExchange α → ι → WebSocketExchange α} {as : List ι}
    (h : ∀ a ∈ as, ∀ e, ∃ frames, Sends e (f e a) frames) (e : WebSocketExchange α) :
    ∃ frames, Sends e (as.foldl f e) frames := by
  induction as generalizing e with
  | nil => exact ⟨[], .refl rfl rfl⟩
  | cons a as ih =>
    obtain ⟨ha, has⟩ := List.forall_mem_cons.mp h
    obtain ⟨fs, hfs⟩ := ha e
    obtain ⟨gs, hgs⟩ := ih has (f e a)
    exact ⟨fs ++ gs, hfs.trans hgs⟩

/-- Frames written one after the other. -/
theorem foldl_fireWrite (frames : List WebSocketFrame) (e : WebSocketExchange α) :
    frames.foldl fireWrite e =
      { e with conn := frames.foldl sendFrame e.conn, written := e.written ++ frames } := by
  induction frames generalizing e with
  | nil => simp
  | cons frame frames ih => rw [List.foldl_cons, ih]; simp [fireWrite]

/-- A callback changes the application's state and sends. -/
theorem call_eq (e : WebSocketExchange α) (r : α × List WebSocketSend) :
    e.call r = { e with
      app := r.1
      conn := (r.2.map WebSocketSend.frame).foldl sendFrame e.conn
      written := e.written ++ r.2.map WebSocketSend.frame } :=
  foldl_fireWrite _ _

theorem sends_perform (e : WebSocketExchange α) {effect : WsEffect} (hclose : effect ≠ .close) :
    ∃ frames, Sends e (e.perform app effect) frames := by
  have hcall (r : α × List WebSocketSend) : Sends e (e.call r) (r.2.map WebSocketSend.frame) := by
    rw [call_eq]
    exact ⟨rfl, rfl⟩
  cases effect with
  | fireWrite frame => exact ⟨[frame], rfl, rfl⟩
  | onOpen => exact ⟨_, hcall _⟩
  | onMessage message => exact ⟨_, hcall _⟩
  | onBinary data => exact ⟨_, hcall _⟩
  | onClose code reason => exact ⟨_, hcall _⟩
  | close => exact absurd rfl hclose
  | _ => exact ⟨[], .refl rfl rfl⟩

/-! ### The handler's share -/

/-- From this session the handler comes to that result without opening the WebSocket or closing the
connection. -/
structure Calm (s : Session) (r : Session × List WsEffect) : Prop where
  opened : r.1.ws.opened = s.ws.opened
  closes : WsEffect.close ∉ r.2

theorem Calm.andThen {s : Session} {r : Session × List WsEffect}
    {f : Session → Session × List WsEffect} (h : Calm s r) (hf : ∀ s, Calm s (f s)) :
    Calm s (andThen r f) :=
  ⟨(hf r.1).opened.trans h.opened, fun hmem => (List.mem_append.mp hmem).elim h.closes
    (hf r.1).closes⟩

theorem calm_cancelTimers (s : Session) : Calm s (cancelTimers s) := by
  have hping (s : Session) : Calm s (cancelPing s) := by
    unfold cancelPing
    split <;> exact ⟨rfl, by simp⟩
  have hpong (s : Session) : Calm s (cancelPong s) := by
    unfold cancelPong
    split <;> exact ⟨rfl, by simp⟩
  exact ((hping s).andThen hpong).andThen fun s => ⟨rfl, List.not_mem_nil⟩

theorem calm_schedulePing (s : Session) : Calm s (handler.schedulePing s) := by
  refine (calm_cancelTimers s).andThen fun s => ?_
  split <;> exact ⟨rfl, by simp⟩

theorem calm_onFrame (s : Session) (frame : WebSocketFrame) :
    Calm s (handler.onFrame s frame) := by
  have hone (s : Session) {effect : WsEffect} (heffect : effect ≠ .close) :
      Calm s (WebSocketHandler.andThen (s, [effect]) handler.schedulePing) :=
    Calm.andThen ⟨rfl, by simpa using heffect.symm⟩ (calm_schedulePing handler)
  have hnone (s : Session) : Calm s (s, []) := ⟨rfl, List.not_mem_nil⟩
  unfold onFrame
  refine Calm.andThen ?_ fun s => ?_
  · split
    · refine (calm_cancelTimers s).andThen fun s => ?_
      obtain ⟨hopened, hcloses⟩ := calm_schedulePing handler
        { s with ws := { s.ws with waitingPong := false } }
      exact ⟨hopened, hcloses⟩
    · exact hnone s
  · split_ifs
    · exact hone s (by simp)
    · exact hone s (by simp)
    · exact hone s (by simp)
    · exact (calm_cancelTimers s).andThen fun s => ⟨rfl, by simp⟩
    · exact hnone s

theorem closes_channelRead (s : Session) (msg : Msg) :
    WsEffect.close ∉ (handler.channelRead s msg).2 := by
  intro hmem
  rcases List.mem_append.mp hmem with hgreet | hmsg
  · split at hgreet
    · rcases List.mem_append.mp hgreet with hopen | hping
      · simp at hopen
      · exact (calm_schedulePing handler _).closes hping
    · simp at hgreet
  · cases msg with
    | frame frame =>
      rcases List.mem_append.mp hmsg with hactive | hframe
      · simp at hactive
      · exact (calm_onFrame handler _ frame).closes hframe
    | _ => simp at hmsg

/-- **A message** leaves the WebSocket opened. -/
theorem opened_channelRead (s : Session) (frame : WebSocketFrame) :
    (handler.channelRead s (.frame frame)).1.ws.opened = true := by
  refine (calm_onFrame handler _ frame).opened.trans ?_
  cases hopened : s.ws.opened with
  | true => simpa using hopened
  | false =>
    simp only [Bool.not_false, if_true]
    exact (calm_schedulePing handler _).opened

theorem opened_channelInactive (s : Session) :
    (channelInactive s).1.ws.opened = s.ws.opened :=
  (calm_cancelTimers s).opened

/-- **A timer** writes one PING, or closes the connection, or does nothing. -/
theorem fireTimer_cases (s : Session) (timerId : ℕ) :
    (handler.fireTimer s timerId).1.ws.opened = s.ws.opened ∧
      ((handler.fireTimer s timerId).2 = [] ∨ (handler.fireTimer s timerId).2 = [.close] ∨
        ∃ delayMs id, (handler.fireTimer s timerId).2 =
          [.fireWrite { opcode := .ping, fin := true }, .signalActivity,
            .runAfter delayMs .pongTimeout id]) := by
  unfold fireTimer
  split
  next task _ =>
    cases task with
    | ping =>
      simp only [runTask, pingTimer]
      split
      · exact ⟨rfl, .inl rfl⟩
      · exact ⟨rfl, .inr (.inr ⟨_, _, rfl⟩)⟩
    | pongTimeout => exact ⟨rfl, .inr (.inl rfl)⟩
  · exact ⟨rfl, .inl rfl⟩

/-! ### Answering -/

/-- The application has been called for these messages, and has sent what it sends. PINGs are the
handler's own. -/
structure Talked (a : α) (frames : List WebSocketFrame) (e : WebSocketExchange α) : Prop where
  opened : e.session.ws.opened = true ↔ frames ≠ []
  state : e.app = (app.talk a frames).1
  written : e.written.filter (fun frame => frame.opcode ≠ .ping) = (app.talk a frames).2
  pings : ∀ frame ∈ e.written, frame.opcode = .ping → frame = { opcode := .ping, fin := true }

theorem talk_concat (a : α) (frames : List WebSocketFrame) (frame : WebSocketFrame) :
    app.talk a (frames ++ [frame]) =
      let t := if frames = [] then app.greet a else app.talk a frames
      ((app.reply t.1 frame).1, t.2 ++ (app.reply t.1 frame).2) := by
  unfold WebSocketApp.talk
  rw [List.foldl_append, if_neg (by simp)]
  by_cases hnil : frames = []
  · rw [if_pos hnil, hnil]
    rfl
  · rw [if_neg hnil, if_neg hnil]
    rfl

theorem ne_ping_of_send (s : WebSocketSend) : s.frame.opcode ≠ .ping := by
  cases s with
  | send message => exact show WebSocketOpcode.text ≠ .ping by decide
  | sendBinary data => exact show WebSocketOpcode.binary ≠ .ping by decide
  | close code reason => exact show WebSocketOpcode.close ≠ .ping by decide

theorem ne_ping_of_sends (sends : List WebSocketSend) :
    (sends.map WebSocketSend.frame).filter (fun frame => frame.opcode ≠ .ping) =
      sends.map WebSocketSend.frame := by
  refine List.filter_eq_self.mpr fun frame hframe => ?_
  obtain ⟨s, -, rfl⟩ := List.mem_map.mp hframe
  exact decide_eq_true (ne_ping_of_send s)

theorem ne_ping_of_reply (a : α) (frame : WebSocketFrame) :
    (app.reply a frame).2.filter (fun frame => frame.opcode ≠ .ping) =
      (app.reply a frame).2 := by
  unfold WebSocketApp.reply
  split_ifs
  · rfl
  · exact ne_ping_of_sends _
  · exact ne_ping_of_sends _
  · exact congrArg _ (ne_ping_of_sends _)
  · rfl

theorem perform_of_not_talks {effect : WsEffect} (h : Conversation.Talks effect = false)
    (hclose : effect ≠ .close) (e : WebSocketExchange α) : e.perform app effect = e := by
  cases effect <;> simp_all [Conversation.Talks, perform]

theorem foldl_perform {effects : List WsEffect} (h : WsEffect.close ∉ effects)
    (e : WebSocketExchange α) : effects.foldl (perform app) e =
      (effects.filter Conversation.Talks).foldl (perform app) e := by
  induction effects generalizing e with
  | nil => rfl
  | cons effect effects ih =>
    obtain ⟨hclose, hrest⟩ := not_or.mp (fun hmem => h (List.mem_cons.mpr hmem))
    cases htalks : Conversation.Talks effect with
    | true => rw [List.filter_cons_of_pos htalks, List.foldl_cons, List.foldl_cons, ih hrest]
    | false =>
      rw [List.filter_cons_of_neg (by simp [htalks]), List.foldl_cons,
        perform_of_not_talks app htalks (Ne.symm hclose), ih hrest]

/-- What is said on a frame is sent. -/
theorem foldl_answer (e : WebSocketExchange α) (frame : WebSocketFrame) :
    (Conversation.answer frame).foldl (perform app) e =
      { e with
        app := (app.reply e.app frame).1
        conn := (app.reply e.app frame).2.foldl sendFrame e.conn
        written := e.written ++ (app.reply e.app frame).2 } := by
  unfold Conversation.answer WebSocketApp.reply
  split_ifs <;> simp [perform, call_eq, fireWrite]

/-- **One message**: the application is called, for the first one also to open. -/
theorem receive_frame (e : WebSocketExchange α) (frame : WebSocketFrame) :
    let t := if e.session.ws.opened then (e.app, []) else app.greet e.app
    let r := app.reply t.1 frame
    e.receive handler app (.frame frame) =
      { e with
        session := (handler.channelRead e.session (.frame frame)).1
        app := r.1
        conn := (t.2 ++ r.2).foldl sendFrame e.conn
        written := e.written ++ (t.2 ++ r.2) } := by
  intro t r
  unfold receive follow
  rw [foldl_perform app (closes_channelRead handler _ _), Conversation.talks_channelRead]
  cases hopened : e.session.ws.opened with
  | true =>
    have ht : t = (e.app, []) := if_pos hopened
    simp only [if_true, List.nil_append, foldl_answer, r, ht]
  | false =>
    have ht : t = app.greet e.app := if_neg (by simp [hopened])
    simp [foldl_answer, r, ht, perform, call_eq, WebSocketApp.greet]

theorem Talked.receive {a : α} {frames : List WebSocketFrame} (h : Talked app a frames e)
    (frame : WebSocketFrame) :
    Talked app a (frames ++ [frame]) (e.receive handler app (.frame frame)) := by
  obtain ⟨hopened, hstate, hwritten, hpings⟩ := h
  have ht : (if e.session.ws.opened then (e.app, []) else app.greet e.app) =
      (if frames = [] then app.greet a else ((app.talk a frames).1, [])) := by
    by_cases hnil : frames = []
    · rw [if_neg (by simpa [hnil] using hopened), if_pos hnil, hstate, hnil]
      rfl
    · rw [if_pos (hopened.mpr hnil), if_neg hnil, hstate]
  have hgreet : (app.greet a).2.filter (fun frame => frame.opcode ≠ .ping) = (app.greet a).2 :=
    ne_ping_of_sends _
  have hother (b : α) : (if frames = [] then app.greet a else (b, [])).2.filter
      (fun frame => frame.opcode ≠ .ping) = (if frames = [] then app.greet a else (b, [])).2 := by
    split
    · exact hgreet
    · rfl
  rw [receive_frame, ht]
  refine ⟨by simp [opened_channelRead], ?_, ?_, ?_⟩
  · rw [talk_concat]
    by_cases hnil : frames = [] <;> simp [hnil]
  · rw [talk_concat, List.filter_append, List.filter_append, hwritten, ne_ping_of_reply, hother]
    by_cases hnil : frames = []
    · rw [if_pos hnil, if_pos hnil, hnil]
      rfl
    · rw [if_neg hnil, if_neg hnil]
      rfl
  · intro later hlater hping
    rcases List.mem_append.mp hlater with hbefore | hnew
    · exact hpings later hbefore hping
    · -- only the handler's timer sends a PING
      rw [← hother, ← ne_ping_of_reply, ← List.filter_append] at hnew
      exact absurd hping (by simpa using (List.mem_filter.mp hnew).2)

theorem Talked.receiveAll {a : α} {frames : List WebSocketFrame} (h : Talked app a frames e)
    (later : List WebSocketFrame) : Talked app a (frames ++ later)
      ((later.map Msg.frame).foldl (WebSocketExchange.receive handler app) e) := by
  induction later generalizing frames e with
  | nil => simpa using h
  | cons frame later ih =>
    have hall := ih (h.receive handler app frame)
    rwa [List.append_assoc, List.singleton_append] at hall

theorem receiveAll_kept (e : WebSocketExchange α) (frames : List WebSocketFrame) :
    ((frames.map Msg.frame).foldl (receive handler app) e).incoming = e.incoming ∧
      ((frames.map Msg.frame).foldl (receive handler app) e).codec = e.codec := by
  induction frames generalizing e with
  | nil => exact ⟨rfl, rfl⟩
  | cons frame frames ih =>
    obtain ⟨hincoming, hcodec⟩ := ih (e.receive handler app (.frame frame))
    rw [receive_frame] at hincoming hcodec
    rw [List.map_cons, List.foldl_cons, receive_frame]
    exact ⟨hincoming, hcodec⟩

/-- Closing writes nothing. -/
theorem close_eq (e : WebSocketExchange α) : e.close = { e with
    conn := e.conn.close
    session := if e.conn.closed then e.session else (channelInactive e.session).1 } := by
  unfold close
  split
  next hclosed => simp [Connection.close, hclosed]
  · rfl

/-- **A timer** calls the application for nothing. -/
theorem Talked.fireTimer {a : α} {frames : List WebSocketFrame} (h : Talked app a frames e)
    (timerId : ℕ) :
    Talked app a frames (e.follow app (handler.fireTimer e.session timerId)) := by
  obtain ⟨hopened, hstate, hwritten, hpings⟩ := h
  obtain ⟨hkept, heffects⟩ := fireTimer_cases handler e.session timerId
  unfold follow
  rcases heffects with hnone | hclose | ⟨delayMs, id, hping⟩
  · rw [hnone]
    exact ⟨by rwa [List.foldl_nil, hkept], hstate, hwritten, hpings⟩
  · rw [hclose]
    simp only [List.foldl_cons, List.foldl_nil, perform, close_eq]
    refine ⟨?_, hstate, hwritten, hpings⟩
    split
    · rwa [hkept]
    · rwa [opened_channelInactive, hkept]
  · rw [hping]
    simp only [List.foldl_cons, List.foldl_nil, perform, fireWrite]
    refine ⟨by rwa [hkept], hstate, ?_, ?_⟩
    · rw [List.filter_append, hwritten]
      exact List.append_nil _
    · intro frame hframe hopcode
      rcases List.mem_append.mp hframe with hbefore | hnew
      · exact hpings frame hbefore hopcode
      · exact List.mem_singleton.mp hnew

theorem fireTimer_kept (e : WebSocketExchange α) (timerId : ℕ) :
    (e.step handler app (.fireTimer timerId)).incoming = e.incoming ∧
      (e.step handler app (.fireTimer timerId)).codec = e.codec := by
  obtain ⟨-, hnone | hclose | ⟨delayMs, id, hping⟩⟩ :=
    fireTimer_cases handler e.session timerId
  · simp [WebSocketExchange.step, follow, hnone]
  · simp [WebSocketExchange.step, follow, hclose, perform, close_eq]
  · simp [WebSocketExchange.step, follow, hping, perform, fireWrite]

/-! ### Runs -/

/-- The bytes of a stream that have come, decoded. -/
def arrived (fs : List WebSocketFrame) (e : WebSocketExchange α) : List WebSocketFrame :=
  let stream := (fs.map wire).flatten
  (WebSocketCodec.frameDecoder.drain {} (stream.take (stream.length - e.incoming.length))).out

/-- The connection has taken the bytes `seen`: the codec holds what they have of a frame that is not
whole, and the messages in them are answered. -/
structure Inv (a : α) (stream : Bytes) (e : WebSocketExchange α) : Prop where
  seen : ∃ seen, seen ++ e.incoming = stream ∧
    e.codec.toFragments = (WebSocketCodec.frameDecoder.drain {} seen).state ∧
    e.codec.leftover.readable = (WebSocketCodec.frameDecoder.drain {} seen).rest ∧
    Talked app a (WebSocketCodec.frameDecoder.drain {} seen).out e

section inv

variable {a : α} {stream : Bytes}
  (hdrop : (WebSocketCodec.frameDecoder.drain {} stream).dropped = [])
include hdrop

theorem Inv.onRead (h : Inv app a stream e) (n : ℕ) :
    Inv app a stream (e.onRead handler app n) := by
  obtain ⟨seen, hcut, hstate, hrest, htalked⟩ := h
  unfold WebSocketExchange.onRead
  split
  · exact ⟨seen, hcut, hstate, hrest, htalked⟩
  next hread =>
    obtain ⟨-, hne⟩ := not_or.mp hread
    have hincoming : e.incoming ≠ [] := fun hnil => hne (by rw [hnil, List.take_nil])
    rw [← hcut] at hdrop
    obtain ⟨-, happend⟩ := Decoder.drain_append hincoming hdrop
    have hbytes : (ByteBuf.copyOf (e.incoming.take n)).readable = e.incoming.take n :=
      ByteBuf.readable_copyOf _
    have hbuf : (ByteBuf.copyOf (e.incoming.take n)).readableBytes ≠ 0 := by
      intro hzero
      rw [← ByteBuf.readable_eq_nil_iff, hbytes] at hzero
      exact hne hzero
    obtain ⟨hfired, hnext, hleft⟩ :=
      WebSocketCodec.readBuffer_drains e.codec (.copyOf (e.incoming.take n))
    rw [hstate, hrest, hbytes] at hfired hnext hleft
    simp only [WebSocketCodec.channelRead, if_neg hbuf, hfired]
    have htaken : Talked app a (WebSocketCodec.frameDecoder.drain {} seen).out
        { e with
          incoming := e.incoming.drop n
          codec := (WebSocketCodec.readBuffer e.codec (.copyOf (e.incoming.take n))).state } :=
      ⟨htalked.opened, htalked.state, htalked.written, htalked.pings⟩
    have hall := htaken.receiveAll handler app (WebSocketCodec.frameDecoder.drain
      (WebSocketCodec.frameDecoder.drain {} seen).state
      ((WebSocketCodec.frameDecoder.drain {} seen).rest ++ e.incoming.take n)).out
    obtain ⟨hin, hcodec⟩ := receiveAll_kept handler app
      { e with
        incoming := e.incoming.drop n
        codec := (WebSocketCodec.readBuffer e.codec (.copyOf (e.incoming.take n))).state }
      (WebSocketCodec.frameDecoder.drain
        (WebSocketCodec.frameDecoder.drain {} seen).state
        ((WebSocketCodec.frameDecoder.drain {} seen).rest ++ e.incoming.take n)).out
    refine ⟨seen ++ e.incoming.take n, ?_, ?_, ?_, ?_⟩
    · rw [hin, List.append_assoc, List.take_append_drop, hcut]
    · rw [hcodec, hnext, happend]
    · rw [hcodec, hleft, happend, List.nil_append]
    · rw [happend]
      exact hall

theorem Inv.step (h : Inv app a stream e) (op : Op) :
    Inv app a stream (e.step handler app op) := by
  cases op with
  | onRead n => exact h.onRead handler app hdrop n
  | onWrite =>
    obtain ⟨seen, hcut, hstate, hrest, htalked⟩ := h
    exact ⟨seen, hcut, hstate, hrest, htalked.opened, htalked.state, htalked.written,
      htalked.pings⟩
  | fireTimer timerId =>
    obtain ⟨seen, hcut, hstate, hrest, htalked⟩ := h
    obtain ⟨hin, hcodec⟩ := fireTimer_kept handler app e timerId
    exact ⟨seen, by rwa [← hin] at hcut, hcodec ▸ hstate, hcodec ▸ hrest,
      htalked.fireTimer handler app timerId⟩

end inv

/-! ### No byte is lost -/

theorem output_close (c : Connection) : c.close.output = c.output := by
  unfold Connection.close
  split <;> rfl

theorem output_sendFrame (c : Connection) (frame : WebSocketFrame) :
    (sendFrame c frame).output = c.socket.accepted ++ frame.wire := by
  rw [← readable_encodeFrame]
  exact WebSocketCodec.output_write c frame

/-- A frame, with those sent before it. -/
def put (p : Connection × List WebSocketFrame) (frame : WebSocketFrame) :
    Connection × List WebSocketFrame :=
  (sendFrame p.1 frame, p.2 ++ [frame])

/-- Behind `base` no more bytes are there than those of the frames. -/
def Lags (base : Bytes) (p : Connection × List WebSocketFrame) : Prop :=
  p.1.output.length ≤ base.length + (p.2.flatMap wire).length

/-- Behind `base` the bytes of the frames are there, all of them and in order. -/
def Sent (base : Bytes) (p : Connection × List WebSocketFrame) : Prop :=
  p.1.output = base ++ p.2.flatMap wire

variable {base : Bytes}

theorem Sent.lags {p : Connection × List WebSocketFrame} (h : Sent base p) : Lags base p :=
  ((congrArg List.length h).trans List.length_append).le

theorem Lags.put {p : Connection × List WebSocketFrame} (h : Lags base p)
    (frame : WebSocketFrame) : Lags base (put p frame) := by
  unfold Lags WebSocketExchange.put at *
  rw [output_sendFrame]
  rw [Connection.output] at h
  simp only [List.length_append, List.flatMap_append, List.flatMap_singleton] at h ⊢
  omega

/-- What was lost is not found again. -/
theorem sent_put_iff {p : Connection × List WebSocketFrame} (h : Lags base p)
    (frame : WebSocketFrame) :
    Sent base (put p frame) ↔ Sent base p ∧ p.1.writeBuf.readable = [] := by
  unfold Sent put
  unfold Lags at h
  rw [output_sendFrame, List.flatMap_append, List.flatMap_singleton, ← List.append_assoc,
    List.append_left_inj]
  rw [Connection.output] at h ⊢
  constructor
  · intro hsent
    have hlen := congrArg List.length hsent
    rw [List.length_append] at h hlen
    have hwait : p.1.writeBuf.readable = [] := List.eq_nil_of_length_eq_zero (by omega)
    exact ⟨by rw [hwait, List.append_nil, hsent], hwait⟩
  · rintro ⟨hsent, hwait⟩
    rwa [hwait, List.append_nil] at hsent

theorem foldl_put (p : Connection × List WebSocketFrame) (frames : List WebSocketFrame) :
    frames.foldl put p = (frames.foldl sendFrame p.1, p.2 ++ frames) := by
  induction frames generalizing p with
  | nil => simp
  | cons frame frames ih => rw [List.foldl_cons, ih]; simp [put]

theorem along_put (p : Connection × List WebSocketFrame) (frames : List WebSocketFrame) :
    Ledger.Along put (fun p _ => p.1.writeBuf.readable = []) p frames ↔
      Ledger.Along sendFrame (fun c _ => c.writeBuf.readable = []) p.1 frames := by
  induction frames generalizing p with
  | nil => exact Iff.rfl
  | cons frame frames ih => exact and_congr_right fun _ => ih (put p frame)

/-- The connection, and what has been written on it. -/
abbrev sending (e : WebSocketExchange α) : Connection × List WebSocketFrame := (e.conn, e.written)

theorem sends_receive (e : WebSocketExchange α) (msg : Msg) :
    ∃ frames, Sends e (e.receive handler app msg) frames := by
  have hcloses := closes_channelRead handler e.session msg
  obtain ⟨frames, hframes⟩ := Sends.foldl (f := perform app)
    (fun effect heffect e => sends_perform app e fun hclose => hcloses (hclose ▸ heffect))
    { e with session := (handler.channelRead e.session msg).1 }
  exact ⟨frames, hframes.written, hframes.conn⟩

theorem sends_onRead (e : WebSocketExchange α) (n : ℕ) :
    ∃ frames, Sends e (e.onRead handler app n) frames := by
  unfold onRead
  split
  · exact ⟨[], .refl rfl rfl⟩
  · obtain ⟨frames, hframes⟩ := Sends.foldl
      (f := receive handler app) (fun msg _ e => sends_receive handler app e msg)
      { e with
        incoming := e.incoming.drop n
        codec := (WebSocketCodec.channelRead e.codec
          (.buffer (.copyOf (e.incoming.take n)))).1 }
    exact ⟨frames, hframes.written, hframes.conn⟩

/-- **A step sends** the frames that it adds; all else that it does to the connection leaves the
output alone. -/
theorem step_sends (e : WebSocketExchange α) (op : Op) :
    (e.step handler app op).written = e.written ++ e.adds handler app op ∧
      (e.step handler app op).conn.output =
        ((e.adds handler app op).foldl sendFrame e.conn).output := by
  have hadds {frames : List WebSocketFrame}
      (hwritten : (e.step handler app op).written = e.written ++ frames)
      (hout : (e.step handler app op).conn.output = (frames.foldl sendFrame e.conn).output) :
      (e.step handler app op).written = e.written ++ e.adds handler app op ∧
        (e.step handler app op).conn.output =
          ((e.adds handler app op).foldl sendFrame e.conn).output := by
    have hframes : e.adds handler app op = frames := by rw [adds, hwritten, List.drop_left]
    rw [hframes]
    exact ⟨hwritten, hout⟩
  cases op with
  | onRead n =>
    obtain ⟨frames, hwritten, hconn⟩ := sends_onRead handler app e n
    exact hadds hwritten (congrArg Connection.output hconn)
  | onWrite => exact hadds (List.append_nil _).symm e.conn.onWrite_spec.1
  | fireTimer timerId =>
    obtain ⟨-, hnone | hclose | ⟨delayMs, id, hping⟩⟩ :=
      fireTimer_cases handler e.session timerId
    · have hwritten : (e.step handler app (.fireTimer timerId)).written = e.written ++ [] := by
        simp [step, follow, hnone]
      refine hadds hwritten ?_
      simp [step, follow, hnone]
    · have hwritten : (e.step handler app (.fireTimer timerId)).written = e.written ++ [] := by
        simp [step, follow, hclose, perform, close_eq]
      refine hadds hwritten ?_
      simp only [step, follow, hclose, List.foldl_cons, List.foldl_nil, perform, close_eq]
      exact output_close e.conn
    · have hwritten : (e.step handler app (.fireTimer timerId)).written =
          e.written ++ [{ opcode := .ping, fin := true }] := by
        simp [step, follow, hping, perform, fireWrite]
      refine hadds hwritten ?_
      simp [step, follow, hping, perform, fireWrite]

theorem lags_step {e : WebSocketExchange α} (h : Lags base e.sending) (op : Op) :
    Lags base (e.step handler app op).sending := by
  obtain ⟨hwritten, hout⟩ := step_sends handler app e op
  have hall := Ledger.foldl_preserves (Lags base) (fun p frame hp => hp.put frame) h
    (e.adds handler app op)
  rw [foldl_put] at hall
  unfold Lags sending at *
  rwa [hwritten, hout]

/-- **One step** loses a byte exactly when it writes a frame while bytes are waiting. -/
theorem sent_step_iff {e : WebSocketExchange α} (h : Lags base e.sending) (op : Op) :
    Sent base (e.step handler app op).sending ↔
      Sent base e.sending ∧ e.WritesIdle handler app op := by
  obtain ⟨hwritten, hout⟩ := step_sends handler app e op
  have hall := Ledger.foldl_iff_along (G := Sent base) (Lags base)
    (fun p frame hp => hp.put frame) (fun p frame hp => sent_put_iff hp frame) h
    (e.adds handler app op)
  rw [foldl_put, along_put] at hall
  rw [WritesIdle, ← hall]
  unfold Sent sending
  rw [hwritten, hout]

theorem sent_run_iff {e : WebSocketExchange α} (h : Sent base e.sending) (ops : List Op) :
    Sent base (e.run handler app ops).sending ↔
      Ledger.Along (step handler app) (WritesIdle handler app) e ops := by
  have hrun := Ledger.foldl_iff_along (P := WritesIdle handler app)
    (G := fun e => Sent base e.sending) (fun e => Lags base e.sending)
    (fun e op he => lags_step handler app he op) (fun e op he => sent_step_iff handler app he op)
    h.lags ops
  exact hrun.trans (and_iff_right h)

/-- A connection when it has been upgraded. -/
def start (fs : List WebSocketFrame) (conn : Connection) (a : α) : WebSocketExchange α :=
  { incoming := (fs.map wire).flatten, conn, app := a }

section run

variable {fs : List WebSocketFrame} (hfs : ClientStream fs) (htaken : ∀ f ∈ fs, Taken f)
  {conn : Connection} (hsent : conn.socket.accepted = []) (hwait : conn.writeBuf.readable = [])
include hfs htaken

theorem drain_stream_dropped :
    (WebSocketCodec.frameDecoder.drain {} (fs.map wire).flatten).dropped = [] :=
  WebSocketCodec.drain_dropped hfs htaken (show WebSocketOpcode.text ≠ .close by decide)

theorem talked_run (handler : WebSocketHandler) (app : WebSocketApp α) (conn : Connection) (a : α)
    (ops : List Op) :
    Talked app a (arrived fs ((start fs conn a).run handler app ops))
      ((start fs conn a).run handler app ops) := by
  have hdrop := drain_stream_dropped hfs htaken
  have hstart : Inv app a (fs.map wire).flatten (start fs conn a) :=
    ⟨[], rfl, by simp [start, WebSocketCodec.CodecState.fresh],
      by simp [start, WebSocketCodec.CodecState.fresh], by simp [start],
      by simp [start, WebSocketApp.talk], by simp [start, WebSocketApp.talk], by simp [start]⟩
  obtain ⟨seen, hcut, -, -, htalked⟩ := Ledger.foldl_preserves
    (Inv app a (fs.map wire).flatten) (fun _ op h => h.step handler app hdrop op) hstart ops
  have hseen : (fs.map wire).flatten.take ((fs.map wire).flatten.length -
      ((start fs conn a).run handler app ops).incoming.length) = seen := by
    change _ ++ ((start fs conn a).run handler app ops).incoming = _ at hcut
    rw [← hcut, List.length_append, Nat.add_sub_cancel]
    exact List.take_left
  unfold arrived
  dsimp only
  rw [hseen]
  exact htalked

omit hfs in
theorem arrived_all {e : WebSocketExchange α} (h : e.incoming = []) {out : List WebSocketFrame}
    (hout : WebSocketCodec.Delivers none fs out) : arrived fs e = out := by
  obtain ⟨hdelivered, -⟩ := WebSocketCodec.drain_stream hout
    (show WebSocketCodec.Holds none {} from rfl) fun f hf => (htaken f hf).2
  unfold arrived
  rw [h]
  dsimp only
  rwa [List.length_nil, Nat.sub_zero, List.take_length]

end run

/-! ### The peer -/

/-- A frame as the handler and the application write it. -/
structure Unmasked (f : WebSocketFrame) : Prop where
  whole : WebSocketCodec.whole f = f
  opcode : f.opcode ∈ [WebSocketOpcode.text, .binary, .close, .ping, .pong]

theorem unmasked_send (s : WebSocketSend) : Unmasked s.frame := by
  cases s with
  | send message => exact ⟨rfl, by simp [WebSocketSend.frame]⟩
  | sendBinary data => exact ⟨rfl, by simp [WebSocketSend.frame]⟩
  | close code reason => exact ⟨rfl, by simp [WebSocketSend.frame, Conversation.closeFrame]⟩

theorem unmasked_sends (sends : List WebSocketSend) :
    ∀ f ∈ sends.map WebSocketSend.frame, Unmasked f := by
  intro f hf
  obtain ⟨s, -, rfl⟩ := List.mem_map.mp hf
  exact unmasked_send s

theorem unmasked_reply (a : α) (frame : WebSocketFrame) :
    ∀ f ∈ (app.reply a frame).2, Unmasked f := by
  unfold WebSocketApp.reply
  split_ifs
  · exact List.forall_mem_singleton.mpr ⟨rfl, by simp [pongOf]⟩
  · exact unmasked_sends _
  · exact unmasked_sends _
  · exact List.forall_mem_cons.mpr ⟨⟨rfl, by simp [closeRespOf]⟩, unmasked_sends _⟩
  · exact List.forall_mem_nil _

theorem unmasked_talk (a : α) (frames : List WebSocketFrame) :
    ∀ f ∈ (app.talk a frames).2, Unmasked f := by
  induction frames using List.reverseRecOn with
  | nil => exact List.forall_mem_nil _
  | append_singleton frames frame ih =>
    rw [talk_concat]
    refine List.forall_mem_append.mpr ⟨?_, unmasked_reply app _ frame⟩
    split
    · exact unmasked_sends _
    · exact ih

theorem Talked.unmasked {a : α} {frames : List WebSocketFrame} (h : Talked app a frames e) :
    ∀ f ∈ e.written, Unmasked f := by
  intro f hf
  by_cases hping : f.opcode = .ping
  · rw [h.pings f hf hping]
    exact ⟨rfl, by simp⟩
  · refine unmasked_talk app a frames f ?_
    rw [← h.written]
    exact List.mem_filter.mpr ⟨hf, decide_eq_true hping⟩

/-- The codec delivers it as it is, if it takes it. -/
theorem Unmasked.frameAction {f : WebSocketFrame} (h : Unmasked f) (htaken : Taken f)
    (st : WebSocketCodec.Fragments) :
    WebSocketCodec.frameAction st (WebSocketCodec.wireHeader f) f.payload = .deliver st f := by
  have hfin : f.fin = true := by
    rw [← h.whole]
    rfl
  conv_rhs => rw [← h.whole]
  have hopcode := h.opcode
  simp only [List.mem_cons, List.not_mem_nil, or_false] at hopcode
  rcases hopcode with htext | hbinary | hclose | hcontrol
  · exact WebSocketCodec.frameAction_text htext hfin (htaken.1 htext)
  · exact WebSocketCodec.frameAction_binary hbinary hfin
  · simp [WebSocketCodec.frameAction, WebSocketCodec.wireHeader, WebSocketCodec.whole, hclose, hfin,
      WebSocketOpcode.close, WebSocketOpcode.text, WebSocketOpcode.continuation]
  · exact WebSocketCodec.frameAction_control hcontrol hfin

/-- **Frames are decoded** as they were written, if nothing follows a CLOSE. -/
theorem drain_written {fs : List WebSocketFrame} (h : ∀ f ∈ fs, Unmasked f ∧ Taken f)
    (hlast : ∀ before frame after, fs = before ++ frame :: after → frame.opcode = .close →
      after = []) (st : WebSocketCodec.Fragments) :
    (WebSocketCodec.frameDecoder.drain st (fs.map wire).flatten).out = fs ∧
      (WebSocketCodec.frameDecoder.drain st (fs.map wire).flatten).dropped = [] := by
  induction fs with
  | nil => simp
  | cons f fs ih =>
    obtain ⟨⟨hf, htaken⟩, hfs⟩ := List.forall_mem_cons.mp h
    have hop : f.opcode.toUInt8.toNat < 16 := by
      have hopcode := hf.opcode
      simp only [List.mem_cons, List.not_mem_nil, or_false] at hopcode
      rcases hopcode with h | h | h | h | h <;> rw [h] <;> decide
    have hsize := WebSocketCodec.le_maxStringSize htaken.2
    rw [List.map_cons, List.flatten_cons]
    by_cases hclose : f.opcode = .close
    · have hparse := WebSocketCodec.parseFrame_wire st hop hsize
      rw [hf.frameAction htaken, WebSocketCodec.FrameAction.verdict, if_pos hclose] at hparse
      rw [hlast [] f fs rfl hclose, List.map_nil, List.flatten_nil, List.append_nil,
        Decoder.drain_of_halt hparse]
      exact ⟨rfl, List.drop_length⟩
    · obtain ⟨hout, hdropped⟩ := ih hfs fun before frame after hsplit =>
        hlast (f :: before) frame after (by rw [hsplit, List.cons_append])
      rw [WebSocketCodec.drain_deliver hop hsize (hf.frameAction htaken st) hclose]
      exact ⟨congrArg _ hout, hdropped⟩

/-- What has been sent behind `base` is read back as it was written. -/
theorem Talked.read {base : Bytes} {a : α} {frames : List WebSocketFrame}
    (h : Talked app a frames e) (hsent : Sent base e.sending)
    (hanswers : ∀ f ∈ (app.talk a frames).2, Taken f) (hclose : NothingFollowsClose e.written)
    (hdone : e.conn.writeBuf.readable = []) {bufs : List ByteBuf}
    (hbufs : ∀ b ∈ bufs, b.readable ≠ [])
    (hcut : base ++ (bufs.map ByteBuf.readable).flatten = e.conn.socket.accepted) :
    ∃ got : List WebSocketFrame, (WebSocketCodec.readAll .fresh bufs).2 = got.map .frame ∧
      got.filter (fun frame => frame.opcode ≠ .ping) = (app.talk a frames).2 := by
  have hwritten : ∀ f ∈ e.written, Unmasked f ∧ Taken f := by
    intro f hf
    refine ⟨h.unmasked app f hf, ?_⟩
    by_cases hping : f.opcode = .ping
    · rw [h.pings f hf hping]
      exact ⟨fun htext => absurd htext (by decide), by simp⟩
    · refine hanswers f ?_
      rw [← h.written]
      exact List.mem_filter.mpr ⟨hf, decide_eq_true hping⟩
  obtain ⟨hdrain, hdropped⟩ := drain_written hwritten hclose.2 {}
  have hout : base ++ (bufs.map ByteBuf.readable).flatten = base ++ e.written.flatMap wire := by
    rw [hcut, ← List.append_nil e.conn.socket.accepted, ← hdone]
    exact hsent
  rw [List.append_cancel_left_eq, List.flatMap_def] at hout
  obtain ⟨hread, -⟩ := WebSocketCodec.readAll_eq_drain hbufs hout
    (show WebSocketCodec.CodecState.fresh.leftover.readable = [] from rfl) hdropped
  exact ⟨e.written, hread.trans (congrArg (List.map Msg.frame) hdrain), h.written⟩

/-- **The peer reads what was written.** Everything written idle, UTF-8 in every text, nothing
behind a CLOSE, and all taken by the socket: in whatever pieces the bytes come to a peer with such a
codec, it gets, but for the PINGs, the answers to the messages of its own that have come. -/
theorem run_read {fs : List WebSocketFrame} (hfs : ClientStream fs) (htaken : ∀ f ∈ fs, Taken f)
    {conn : Connection} (hsent : conn.socket.accepted = []) (hwait : conn.writeBuf.readable = [])
    (handler : WebSocketHandler) (app : WebSocketApp α) (a : α) (ops : List Op)
    (hidle : Ledger.Along (step handler app) (WritesIdle handler app) (start fs conn a) ops)
    (hanswers : ∀ f ∈ (app.talk a (arrived fs ((start fs conn a).run handler app ops))).2, Taken f)
    (hclose : NothingFollowsClose ((start fs conn a).run handler app ops).written)
    (hdone : ((start fs conn a).run handler app ops).conn.writeBuf.readable = [])
    {bufs : List ByteBuf} (hbufs : ∀ b ∈ bufs, b.readable ≠ [])
    (hcut : (bufs.map ByteBuf.readable).flatten =
      ((start fs conn a).run handler app ops).conn.socket.accepted) :
    ∃ got : List WebSocketFrame, (WebSocketCodec.readAll .fresh bufs).2 = got.map .frame ∧
      got.filter (fun frame => frame.opcode ≠ .ping) =
        (app.talk a (arrived fs ((start fs conn a).run handler app ops))).2 := by
  have htalked := talked_run hfs htaken handler app conn a ops
  have hstart : Sent [] (start fs conn a).sending := by
    change conn.socket.accepted ++ conn.writeBuf.readable = []
    rw [hsent, hwait, List.append_nil]
  exact htalked.read app ((sent_run_iff handler app hstart ops).mpr hidle) hanswers hclose hdone
    hbufs hcut

section greeting

/-- It greets, and says again what it is told. -/
def greetAndRepeat : WebSocketApp Unit where
  onOpen a := (a, [.send (ascii "hello")])
  onMessage a message := (a, [.send message])
  onBinary a data := (a, [.sendBinary data])
  onClose a _ _ := (a, [])

/-- A socket that takes what it is offered. -/
def eager : Connection := { socket := { answers := fun _ => .accept 1000 } }

open UpgradePipeline (maskedText clientStream_maskedText)

theorem delivers_maskedText :
    WebSocketCodec.Delivers none [maskedText] [WebSocketCodec.whole maskedText] :=
  .text rfl rfl (by decide) .nil

/-- The peer reads the greeting and its own words, one byte first. -/
theorem run_read_twoParts :
    let e := (start [maskedText] eager ()).run {} greetAndRepeat [.onRead 3, .onRead 100]
    ∃ got : List WebSocketFrame, (WebSocketCodec.readAll .fresh
        [.copyOf (e.conn.socket.accepted.take 1), .copyOf (e.conn.socket.accepted.drop 1)]).2 =
        got.map .frame ∧
      got.filter (fun frame => frame.opcode ≠ .ping) =
        [{ payload := ascii "hello" }, { payload := ascii "hi" }] := by
  intro e
  have harrived : arrived [maskedText] e = [WebSocketCodec.whole maskedText] :=
    arrived_all (by decide) (by decide) delivers_maskedText
  have hanswers : (greetAndRepeat.talk () (arrived [maskedText] e)).2 =
      [{ payload := ascii "hello" }, { payload := ascii "hi" }] := by
    rw [harrived]
    decide
  have hcut : ([ByteBuf.copyOf (e.conn.socket.accepted.take 1),
      ByteBuf.copyOf (e.conn.socket.accepted.drop 1)].map ByteBuf.readable).flatten =
      e.conn.socket.accepted := by
    rw [List.map_cons, List.map_cons, List.map_nil, ByteBuf.readable_copyOf,
      ByteBuf.readable_copyOf, List.flatten_cons, List.flatten_cons, List.flatten_nil,
      List.append_nil, List.take_append_drop]
  have hopen : ∀ frame ∈ e.written, frame.opcode ≠ .close := by decide
  obtain ⟨got, hread, hgot⟩ := run_read clientStream_maskedText (by decide)
    (show eager.socket.accepted = [] from rfl) rfl {} greetAndRepeat ()
    [.onRead 3, .onRead 100] (by decide) (by rw [hanswers]; decide)
    ⟨by decide, fun before frame after hsplit hclose =>
      absurd hclose (hopen frame (by rw [hsplit]; simp))⟩ (by decide) (by decide) hcut
  exact ⟨got, hread, hgot.trans hanswers⟩

end greeting

end WebSocketExchange

end XNetty
