import XNetty.Lib.Ledger
import XNetty.WebSocket.Handler

/-!
# What a WebSocket writes

Frames are written by the application, by the handler and by the topic tree's callback. No state
of the connection says that a CLOSE has been written: nothing follows one exactly in the runs in
which nobody writes any more.

## Main definitions

* `Conversation` — one connection, with the frames that were written on it.
* `NothingFollowsClose` — at most one CLOSE, and nothing behind it.
* `Conversation.Quiet` — a step that writes nothing behind a CLOSE.
* `Conversation.nothingFollowsClose_iff` — the runs in which nothing follows a CLOSE.
-/

namespace XNetty

open WebSocketHandler

/-- At most one CLOSE frame, and no frame of any kind behind it. -/
def NothingFollowsClose (written : List WebSocketFrame) : Prop :=
  written.countP (fun frame => frame.opcode = .close) ≤ 1 ∧
    ∀ before frame after, written = before ++ frame :: after → frame.opcode = .close → after = []

/-! ### The connection -/

/-- What the application calls, from a callback or from outside. -/
inductive AppCall where
  | send (message : Bytes)
  | sendBinary (data : Bytes)
  | close (code : UInt16) (reason : Bytes)
  | subscribe (topic : Bytes)
  | unsubscribe (topic : Bytes)
  /-- A message is published to a topic, in the connection's loop or in another thread. -/
  | publish (topic message : Bytes) (inLoop : Bool)

structure Conversation where
  session : Session := {}
  /-- `WebSocket::ctx_` is set. -/
  ctx : Bool := false
  /-- The topics of the subscriber. -/
  sub : Option (List Bytes) := none
  /-- Published messages whose functors the loop has still to run. -/
  posted : List Bytes := []
  /-- `Context::isActive` -/
  active : Bool := true
  /-- The connection is gone, and the codec finds no context to write to. -/
  released : Bool := false
  written : List WebSocketFrame := []

namespace Conversation

def fireWrite (m : Conversation) (frame : WebSocketFrame) : Conversation :=
  if m.released then m else { m with written := m.written ++ [frame] }

/-- The functor of the topic tree's callback. -/
def deliver (m : Conversation) (message : Bytes) : Conversation :=
  if m.active then m.fireWrite { opcode := .text, fin := true, payload := message } else m

/-- The topic tree's callback, for a subscriber of the topic. -/
def published (m : Conversation) (message : Bytes) (inLoop : Bool) : Conversation :=
  if !m.ctx then m
  else if inLoop then m.deliver message
  else { m with posted := m.posted ++ [message] }

/-- The frame that `WebSocket::close` writes. -/
def closeFrame (code : UInt16) (reason : Bytes) : WebSocketFrame where
  opcode := .close
  fin := true
  payload := (code >>> 8).toUInt8 :: code.toUInt8 :: reason

def call (m : Conversation) : AppCall → Conversation
  | .send message =>
    if !m.ctx then m else m.fireWrite { opcode := .text, fin := true, payload := message }
  | .sendBinary data =>
    if !m.ctx then m else m.fireWrite { opcode := .binary, fin := true, payload := data }
  | .close code reason =>
    if !m.ctx then m
    else ({ m with sub := none } : Conversation).fireWrite (closeFrame code reason)
  | .subscribe topic => { m with sub := some (topic :: m.sub.getD []) }
  | .unsubscribe topic => { m with sub := m.sub.map fun topics => topics.filter (· ≠ topic) }
  | .publish topic message inLoop =>
    if topic ∈ m.sub.getD [] then m.published message inLoop else m

/-- One thing that the handler does, with what the application calls in its callbacks. -/
def perform (atOpen atMessage : List AppCall) (m : Conversation) : WsEffect → Conversation
  | .fireWrite frame => m.fireWrite frame
  | .freeSubscriber => { m with sub := none }
  | .onOpen => atOpen.foldl call m
  | .onMessage _ | .onBinary _ | .onClose _ _ => atMessage.foldl call m
  | _ => m

inductive Op where
  | call (c : AppCall)
  | receive (msg : Msg) (atOpen atMessage : List AppCall)
  /-- The callback of a ping timer. -/
  | pingTimer
  /-- The loop runs a posted functor. -/
  | runPosted
  /-- `Context::close`, or the end of the stream. -/
  | inactive
  | writeFails
  | release

variable (handler : WebSocketHandler)

/-- The handler does one thing after the other, and its state is what it leaves. -/
def follow (m : Conversation) (r : Session × List WsEffect) (atOpen atMessage : List AppCall) :
    Conversation :=
  { r.2.foldl (perform atOpen atMessage) m with session := r.1 }

def step (m : Conversation) : Op → Conversation
  | .call c => m.call c
  | .receive msg atOpen atMessage =>
    if m.released then m
    else
      ({ m with ctx := true } : Conversation).follow (handler.channelRead m.session msg) atOpen
        atMessage
  | .pingTimer => if m.released then m else m.follow (handler.pingTimer m.session) [] []
  | .runPosted =>
    match m.posted with
    | [] => m
    | message :: posted => ({ m with posted } : Conversation).deliver message
  | .inactive =>
    ({ m with active := false } : Conversation).follow (channelInactive m.session) [] []
  | .writeFails => { m with active := false }
  | .release => { m with active := false, released := true }

def run (m : Conversation) (ops : List Op) : Conversation := ops.foldl (step handler) m

/-! ### When nothing may be written -/

/-- No CLOSE has been written, or nothing is written any more. -/
def MayWrite (m : Conversation) : Prop :=
  m.released = true ∨ ∀ frame ∈ m.written, frame.opcode ≠ .close

/-- The call writes no frame behind a CLOSE. -/
def QuietCall (m : Conversation) : AppCall → Prop
  | .send _ | .sendBinary _ | .close _ _ => m.ctx = true → m.MayWrite
  | .subscribe _ | .unsubscribe _ => True
  | .publish topic _ inLoop =>
    topic ∈ m.sub.getD [] → m.ctx = true → inLoop = true → m.active = true → m.MayWrite

/-- The calls are quiet, each where the calls before it have come to. -/
abbrev QuietCalls (m : Conversation) (cs : List AppCall) : Prop := Ledger.Along call QuietCall m cs

/-- The connection when the callback of the opening is done. -/
def opened (m : Conversation) (atOpen : List AppCall) : Conversation :=
  (if m.session.ws.opened then [] else atOpen).foldl call { m with ctx := true }

/-- A PING and a CLOSE are answered; in the other frames' callbacks, only the application writes. -/
def QuietFrame (m : Conversation) (frame : WebSocketFrame) (atMessage : List AppCall) : Prop :=
  if frame.opcode = .ping then m.MayWrite
  else if frame.opcode = .text ∨ frame.opcode = .binary then m.QuietCalls atMessage
  else if frame.opcode = .close then
    m.MayWrite ∧
      (({ m with sub := none } : Conversation).fireWrite (closeRespOf frame)).QuietCalls atMessage
  else True

def QuietReceive (m : Conversation) (msg : Msg) (atOpen atMessage : List AppCall) : Prop :=
  QuietCalls { m with ctx := true } (if m.session.ws.opened then [] else atOpen) ∧
    match msg with
    | .frame frame => (m.opened atOpen).QuietFrame frame atMessage
    | _ => True

/-- **Behind a CLOSE** nobody sends or closes, no PING and no second CLOSE is received, no ping
timer runs while no answer is awaited, and no published message reaches the active connection. -/
def Quiet (m : Conversation) : Op → Prop
  | .call c => m.QuietCall c
  | .receive msg atOpen atMessage =>
    m.released = false → m.QuietReceive msg atOpen atMessage
  | .pingTimer => m.session.ws.waitingPong = false → m.MayWrite
  | .runPosted => m.posted ≠ [] → m.active = true → m.MayWrite
  | .inactive | .writeFails | .release => True

/-! ### Writing -/

variable {handler} {m : Conversation}

theorem written_append_iff (w : List WebSocketFrame) (f : WebSocketFrame) :
    NothingFollowsClose (w ++ [f]) ↔
      NothingFollowsClose w ∧ ∀ frame ∈ w, frame.opcode ≠ .close := by
  constructor
  · rintro ⟨-, hlast⟩
    have hnone : ∀ frame ∈ w, frame.opcode ≠ .close := by
      intro frame hmem hclose
      obtain ⟨before, after, rfl⟩ := List.append_of_mem hmem
      have hnil := hlast before frame (after ++ [f]) (by simp) hclose
      simp at hnil
    have hcount : w.countP (fun frame => frame.opcode = .close) = 0 :=
      List.countP_eq_zero.mpr (by simpa using hnone)
    refine ⟨⟨by omega, fun before frame after hsplit hclose => ?_⟩, hnone⟩
    exact absurd hclose (hnone frame (by simp [hsplit]))
  · rintro ⟨-, hnone⟩
    have hcount : w.countP (fun frame => frame.opcode = .close) = 0 :=
      List.countP_eq_zero.mpr (by simpa using hnone)
    constructor
    · rw [List.countP_append, hcount, List.countP_singleton]
      split <;> omega
    · intro before frame after hsplit hclose
      rcases List.eq_nil_or_concat after with rfl | ⟨rest, last, rfl⟩
      · rfl
      · have hinit : w = before ++ frame :: rest := by
          have hconcat : w ++ [f] = (before ++ frame :: rest) ++ [last] := by simpa using hsplit
          exact (List.append_inj' hconcat rfl).1
        exact absurd hclose (hnone frame (by simp [hinit]))

/-- **A frame** may be written while no CLOSE is. -/
theorem fireWrite_iff (m : Conversation) (frame : WebSocketFrame) :
    NothingFollowsClose (m.fireWrite frame).written ↔
      NothingFollowsClose m.written ∧ m.MayWrite := by
  unfold fireWrite MayWrite
  cases m.released with
  | true => simp
  | false => simpa using written_append_iff m.written frame

theorem deliver_iff (m : Conversation) (message : Bytes) :
    NothingFollowsClose (m.deliver message).written ↔
      NothingFollowsClose m.written ∧ (m.active = true → m.MayWrite) := by
  unfold deliver
  cases hactive : m.active with
  | true => simpa using fireWrite_iff m _
  | false => simp

theorem call_iff (m : Conversation) (c : AppCall) :
    NothingFollowsClose (m.call c).written ↔ NothingFollowsClose m.written ∧ m.QuietCall c := by
  cases c with
  | send message => cases hctx : m.ctx <;> simp [call, QuietCall, hctx, fireWrite_iff]
  | sendBinary data => cases hctx : m.ctx <;> simp [call, QuietCall, hctx, fireWrite_iff]
  | close code reason =>
    cases hctx : m.ctx with
    | false => simp [call, QuietCall, hctx]
    | true =>
      have hwrite := fireWrite_iff { m with sub := none } (closeFrame code reason)
      simpa [call, QuietCall, hctx, MayWrite] using hwrite
  | subscribe topic => simp [call, QuietCall]
  | unsubscribe topic => simp [call, QuietCall]
  | publish topic message inLoop =>
    by_cases htopic : topic ∈ m.sub.getD [] <;> cases hctx : m.ctx <;> cases inLoop <;>
      simp [call, QuietCall, published, htopic, hctx, deliver_iff]

theorem calls_iff (m : Conversation) (cs : List AppCall) :
    NothingFollowsClose (cs.foldl call m).written ↔
      NothingFollowsClose m.written ∧ m.QuietCalls cs :=
  Ledger.foldl_iff_along (G := fun n : Conversation => NothingFollowsClose n.written)
    (fun _ => True) (fun _ _ _ => trivial) (fun n c _ => call_iff n c) trivial cs

/-! ### The handler's share -/

/-- What may lead to a frame, or keep one from being written. -/
def Talks : WsEffect → Bool
  | .fireWrite _ | .freeSubscriber | .onOpen | .onMessage _ | .onBinary _ | .onClose _ _ => true
  | _ => false

theorem perform_of_not_talks {atOpen atMessage : List AppCall} {e : WsEffect}
    (he : Talks e = false) : perform atOpen atMessage m e = m := by
  cases e <;> simp_all [Talks, perform]

theorem foldl_perform (atOpen atMessage : List AppCall) (m : Conversation) (es : List WsEffect) :
    es.foldl (perform atOpen atMessage) m =
      (es.filter Talks).foldl (perform atOpen atMessage) m := by
  induction es generalizing m with
  | nil => rfl
  | cons e es ih =>
    cases he : Talks e with
    | true => rw [List.filter_cons_of_pos he, List.foldl_cons, List.foldl_cons, ih]
    | false =>
      rw [List.filter_cons_of_neg (by simp [he]), List.foldl_cons, perform_of_not_talks he, ih]

theorem talks_andThen (r : Session × List WsEffect) (f : Session → Session × List WsEffect) :
    (andThen r f).2.filter Talks = r.2.filter Talks ++ (f r.1).2.filter Talks := by
  simp [andThen]

@[simp] theorem talks_cancelTimers (s : Session) : (cancelTimers s).2.filter Talks = [] := by
  unfold cancelTimers cancelPing cancelPong
  simp only [talks_andThen]
  split_ifs <;> simp [Talks]

@[simp] theorem talks_schedulePing (s : Session) :
    (handler.schedulePing s).2.filter Talks = [] := by
  unfold schedulePing
  simp only [talks_andThen, talks_cancelTimers, List.nil_append]
  split_ifs <;> simp [Talks]

/-- What is said on a frame. -/
def answer (frame : WebSocketFrame) : List WsEffect :=
  if frame.opcode = .ping then [.fireWrite (pongOf frame)]
  else if frame.opcode = .text then [.onMessage frame.payload]
  else if frame.opcode = .binary then [.onBinary frame.payload]
  else if frame.opcode = .close then
    [.freeSubscriber, .fireWrite (closeRespOf frame), .onClose 0 frame.payload]
  else []

theorem talks_onFrame (s : Session) (frame : WebSocketFrame) :
    (handler.onFrame s frame).2.filter Talks = answer frame := by
  unfold onFrame answer
  simp only [talks_andThen]
  have hponged : ((if frame.opcode = .pong then
      andThen (cancelTimers s) fun s =>
        handler.schedulePing { s with ws := { s.ws with waitingPong := false } }
      else (s, [])).2.filter Talks) = [] := by
    split_ifs <;> simp [talks_andThen]
  rw [hponged, List.nil_append]
  split_ifs <;> simp [talks_andThen, Talks]

theorem talks_channelRead (s : Session) (msg : Msg) :
    (handler.channelRead s msg).2.filter Talks =
      (if s.ws.opened then [] else [.onOpen]) ++
        match msg with
        | .frame frame => answer frame
        | _ => [] := by
  unfold WebSocketHandler.channelRead
  simp only [talks_andThen]
  congr 1
  · cases s.ws.opened <;> simp [talks_andThen, Talks]
  · cases msg <;> simp [talks_andThen, talks_onFrame, Talks]

theorem answer_iff (m : Conversation) (frame : WebSocketFrame) (atOpen atMessage : List AppCall) :
    NothingFollowsClose ((answer frame).foldl (perform atOpen atMessage) m).written ↔
      NothingFollowsClose m.written ∧ m.QuietFrame frame atMessage := by
  unfold answer QuietFrame
  by_cases hping : frame.opcode = .ping
  · simp [hping, perform, fireWrite_iff]
  by_cases htext : frame.opcode = .text
  · simp [htext, perform, calls_iff, WebSocketOpcode.text, WebSocketOpcode.ping]
  by_cases hbinary : frame.opcode = .binary
  · simp [hbinary, perform, calls_iff, WebSocketOpcode.binary, WebSocketOpcode.text,
      WebSocketOpcode.ping]
  by_cases hclose : frame.opcode = .close
  · have hreply := fireWrite_iff { m with sub := none } (closeRespOf frame)
    have hcalls := calls_iff (({ m with sub := none } : Conversation).fireWrite (closeRespOf frame))
      atMessage
    rw [hreply, and_assoc] at hcalls
    rw [if_neg hping, if_neg htext, if_neg hbinary, if_pos hclose, if_neg hping,
      if_neg (by simp [htext, hbinary]), if_pos hclose]
    exact hcalls
  · simp [hping, htext, hbinary, hclose]

theorem receive_iff (m : Conversation) (msg : Msg) (atOpen atMessage : List AppCall) :
    NothingFollowsClose (({ m with ctx := true } : Conversation).follow
        (handler.channelRead m.session msg) atOpen atMessage).written ↔
      NothingFollowsClose m.written ∧ m.QuietReceive msg atOpen atMessage := by
  have hopened : (if m.session.ws.opened then [] else [WsEffect.onOpen]).foldl
      (perform atOpen atMessage) { m with ctx := true } = m.opened atOpen := by
    unfold opened
    cases m.session.ws.opened <;> rfl
  have hcalls := calls_iff { m with ctx := true } (if m.session.ws.opened then [] else atOpen)
  have hcalls : NothingFollowsClose (m.opened atOpen).written ↔ _ := hcalls
  simp only [follow, QuietReceive]
  rw [foldl_perform, talks_channelRead, List.foldl_append, hopened]
  cases msg with
  | frame frame =>
    rw [answer_iff, hcalls, and_assoc]
  | _ =>
    simp only [List.foldl_nil, and_true]
    exact hcalls

variable (handler) in
theorem step_iff (m : Conversation) (op : Op) :
    NothingFollowsClose (m.step handler op).written ↔
      NothingFollowsClose m.written ∧ m.Quiet op := by
  cases op with
  | call c => exact call_iff m c
  | receive msg atOpen atMessage =>
    cases hreleased : m.released with
    | true => simp [step, Quiet, hreleased]
    | false => simpa [step, Quiet, hreleased] using receive_iff m msg atOpen atMessage
  | pingTimer =>
    cases hreleased : m.released with
    | true => simp [step, Quiet, hreleased, MayWrite]
    | false =>
      cases hwaiting : m.session.ws.waitingPong <;>
        simp [step, Quiet, hreleased, follow, pingTimer, hwaiting, perform, fireWrite_iff]
  | runPosted =>
    cases hposted : m.posted with
    | nil => simp [step, Quiet, hposted]
    | cons message posted =>
      have hdeliver := deliver_iff { m with posted } message
      simpa [step, Quiet, hposted, MayWrite] using hdeliver
  | inactive =>
    simp only [step, follow, Quiet, and_true]
    rw [foldl_perform]
    simp [channelInactive, talks_andThen, List.filter_cons, Talks, perform]
  | writeFails => simp [step, Quiet]
  | release => simp [step, Quiet]

/-- **Nothing follows a CLOSE** in a run exactly when behind the first CLOSE no step of the run
writes: no call of `send`, `sendBinary` or `close`, no PING or CLOSE received, no ping timer that
awaits no answer, no published message that reaches the active connection. -/
theorem nothingFollowsClose_iff (handler : WebSocketHandler) (session : Session) (ops : List Op) :
    NothingFollowsClose (run handler { session } ops).written ↔
      Ledger.Along (step handler) Quiet { session } ops := by
  have hrun := Ledger.foldl_iff_along (G := fun n : Conversation => NothingFollowsClose n.written)
    (fun _ => True) (fun _ _ _ => trivial) (fun n op _ => step_iff handler n op)
    (s := { session }) trivial ops
  refine hrun.trans (and_iff_right ?_)
  exact ⟨by simp, by simp⟩

/-- The application closes in its answer to a message and sends on. -/
theorem not_nothingFollowsClose_sendAfterClose :
    ¬ NothingFollowsClose
      (run {} {} [.receive (.frame {}) [] [.close 1000 []], .call (.send [])]).written := by
  intro h
  have hlast := h.2 [] (closeFrame 1000 []) [{ opcode := .text, fin := true, payload := [] }]
    (by decide) (by decide)
  simp at hlast

end Conversation

end XNetty
