import XNetty.Lib.Guarded
import XNetty.WebSocket.Handler
import XNetty.WebSocket.Transparency

/-!
# WebSocket events and the handshake

The four handlers of a WebSocket server pass on what they do not recognise, and the last one takes
any message for the start of a WebSocket. Nothing remembers whether an upgrade request has been
answered: what keeps WebSocket events behind the answer is what the client sends.

## Main definitions

* `WebSocketPipeline.run` — chunks and timers of a connection, with the trace of their effects.
* `WebSocketPipeline.Awaits` — the client sends an upgrade request before anything else that the
  handlers deliver.
* `WebSocketPipeline.run_guarded_iff` — when the handshake comes first.
-/

namespace XNetty

/-! ## The request in front -/

namespace HttpServerCodec

variable (codec : HttpServerCodec) (ll : Llhttp)

/-- The request that `raw` begins with, if it is whole and within the limits; `req` is the
request object that it is parsed into. -/
def frontRequest (req : HttpRequest) (raw : Bytes) : Option HttpRequest :=
  let x := ll.execute raw
  let pctx := runCallbacks raw { req := req, maxHeaderSize := codec.maxHeaderSize } x.callbacks
  if pctx.headerTooLarge ∨ ¬ pctx.msgComplete then none
  else
    let stop := x.errorPos.getD raw.length
    let consumed := if stop = 0 then raw.length else stop
    let request :=
      if pctx.headerOffsets ≠ [] ∨ pctx.headerEndOffset > 0 then
        pctx.req.setRawData raw (min consumed stop) pctx.headerOffsets pctx.headerEndOffset
      else pctx.req
    if codec.OverLimit request.ensureHeadersParsed.headers then none
    else some request.ensureHeadersParsed

/-- An action that is about no message and answers no upgrade. -/
def plain : Action → Bool
  | .fireRead _ => false
  | .writeAndFlush resp => resp.status ≠ .switchingProtocols
  | _ => true

variable {codec ll}

/-- The request in front is the one that the first turn passes on. -/
theorem frontRequest_eq (req : HttpRequest) (raw : Bytes) :
    codec.frontRequest ll req raw =
      match turn codec ll req raw with
      | .passedOn request _ => some request.ensureHeadersParsed
      | _ => none := by
  unfold frontRequest turn
  extract_lets x pctx stop consumed request
  by_cases hlarge : pctx.headerTooLarge = true
  · rw [if_pos (.inl hlarge), if_pos hlarge]
  by_cases hmsg : pctx.msgComplete = true
  · rw [if_neg (by simp [hlarge, hmsg]), if_neg hlarge, if_neg (not_not_intro hmsg)]
    by_cases hover : codec.OverLimit request.ensureHeadersParsed.headers
    · rw [if_pos hover, if_pos hover]
    · rw [if_neg hover, if_neg hover]
  · rw [if_pos (.inr hmsg), if_neg hlarge, if_pos hmsg]

theorem plain_noted (req : HttpRequest) : ∀ a ∈ noted req, plain a = true := by
  intro a ha
  simp only [noted, List.mem_cons, List.not_mem_nil, or_false] at ha
  rcases ha with rfl | rfl <;> rfl

/-- **The loop passes on the request in front first**, and without one nothing. -/
theorem readLoop_front {fuel : ℕ} {st st' : CodecState} {src : Source} {raw : Bytes}
    {actions : List Action} (h : readLoop codec ll (fuel + 1) st src raw = some (st', actions)) :
    (codec.frontRequest ll st.request raw = none ∧ ∀ a ∈ actions, plain a = true) ∨
    ∃ req before later, codec.frontRequest ll st.request raw = some req ∧
      (∀ a ∈ before, plain a = true) ∧
      actions = before ++ .fireRead (.request req) :: later := by
  rw [readLoop_turn] at h
  rw [frontRequest_eq]
  cases hturn : turn codec ll st.request raw with
  | headerTooLarge req =>
    rw [hturn] at h
    obtain ⟨-, rfl⟩ := Prod.mk.inj (Option.some.inj h)
    exact .inl ⟨rfl, List.forall_mem_singleton.mpr (by decide)⟩
  | unfinished req =>
    rw [hturn, afterTurn] at h
    refine .inl ⟨rfl, ?_⟩
    split at h
    · obtain ⟨leftover, -, hresult⟩ := Option.map_eq_some_iff.mp h
      rw [← (Prod.mk.inj hresult).2]
      exact List.forall_mem_nil _
    · rw [← (Prod.mk.inj (Option.some.inj h)).2]
      exact List.forall_mem_nil _
  | bodyTooLarge req =>
    rw [hturn] at h
    rw [← (Prod.mk.inj (Option.some.inj h)).2]
    refine .inl ⟨rfl, List.forall_mem_append.mpr ⟨plain_noted req, ?_⟩⟩
    exact List.forall_mem_singleton.mpr (by decide)
  | passedOn req consumed =>
    rw [hturn, afterTurn] at h
    refine .inr ⟨req.ensureHeadersParsed, noted req, ?_⟩
    split at h
    · exact ⟨[], rfl, plain_noted req, (Prod.mk.inj (Option.some.inj h)).2.symm⟩
    · obtain ⟨⟨st'', later⟩, -, hresult⟩ := Option.map_eq_some_iff.mp h
      refine ⟨later, rfl, plain_noted req, ?_⟩
      rw [← (Prod.mk.inj hresult).2]
      simp

/-- The buffer goes past the codec. -/
def Passes (st : CodecState) (buf : ByteBuf) : Prop :=
  st.leftover.readable = [] ∧ startsRequest buf.readable = false

/-- What the codec does with a buffer that it takes. -/
theorem channelRead_front {st st' : CodecState} {buf : ByteBuf} (hne : buf.readable ≠ [])
    (htaken : ¬ Passes st buf) {actions : List Action}
    (h : channelRead codec ll st (.buffer buf) = some (st', actions)) :
    (codec.frontRequest ll st.request (st.leftover.readable ++ buf.readable) = none ∧
      ∀ a ∈ actions, plain a = true) ∨
    ∃ req before later,
      codec.frontRequest ll st.request (st.leftover.readable ++ buf.readable) = some req ∧
      (∀ a ∈ before, plain a = true) ∧
      actions = before ++ .fireRead (.request req) :: later := by
  by_cases hidle : st.leftover.readable = []
  · have hstart : startsRequest buf.readable = true := by
      rw [← Bool.not_eq_false]
      exact fun hother => htaken ⟨hidle, hother⟩
    rw [channelRead_of_idle hne hidle hstart] at h
    rw [hidle, List.nil_append]
    exact readLoop_front h
  · rw [channelRead_of_held hne hidle] at h
    have hfront := readLoop_front h
    exact hfront

end HttpServerCodec

namespace WebSocketUpgradeHandler

/-- The requests that the handler answers with 101. -/
def Accepts (handler : WebSocketUpgradeHandler) (req : HttpRequest) : Prop :=
  (handler.path = [] ∨ req.uri = handler.path) ∧
  ((req.header (ascii "Upgrade")).1 = ascii "websocket" ∨
    (req.header (ascii "Upgrade")).1 = ascii "WebSocket") ∧
  (req.header (ascii "Sec-WebSocket-Key")).1 ≠ []

instance (handler : WebSocketUpgradeHandler) (req : HttpRequest) :
    Decidable (handler.Accepts req) := inferInstanceAs (Decidable (_ ∧ _ ∧ _))

variable {handler : WebSocketUpgradeHandler} {req : HttpRequest}

/-- Looking at one header does not change another. -/
theorem header_after (name key : Bytes) : (req.header name).2.header key = req.header key := by
  simp [HttpRequest.header]

theorem channelRead_accepts (h : handler.Accepts req) :
    ∃ key proto, handler.channelRead (.request req) =
      [.setConnKeepAlive true, .writeAndFlush (switchProtocols key proto)] := by
  obtain ⟨hpath, hupgrade, hkey⟩ := h
  simp only [channelRead, header_after]
  split_ifs with hother hplain
  · exact absurd (hpath.resolve_left hother.1) hother.2
  · exact absurd hupgrade (not_or.mpr hplain)
  · exact ⟨_, _, rfl⟩

theorem channelRead_refuses (h : ¬ handler.Accepts req) :
    ∃ req', handler.channelRead (.request req) = [.fireRead (.request req')] := by
  simp only [channelRead, header_after]
  split_ifs with hother hplain hkey
  · exact ⟨_, rfl⟩
  · exact ⟨_, rfl⟩
  · exact ⟨_, rfl⟩
  · refine absurd ⟨?_, ?_, hkey⟩ h
    · exact (Decidable.not_and_iff_or_not.mp hother).imp not_not.mp not_not.mp
    · exact (Decidable.not_and_iff_or_not.mp hplain).imp not_not.mp not_not.mp

end WebSocketUpgradeHandler

/-! ## The pipeline -/

/-- `HttpServerCodec`, `WebSocketUpgradeHandler`, `WebSocketCodec`, `WebSocketHandler`. -/
structure WebSocketPipeline extends UpgradePipeline where
  handler : WebSocketHandler

namespace WebSocketPipeline

open HttpServerCodec (Passes)
open WebSocketHandler (Session WsEffect andThen)

/-- What a connection's handlers remember. -/
structure State extends UpgradePipeline.State where
  session : Session := {}

/-- A chunk arrives, or the loop runs a timer. -/
inductive Event where
  | chunk (buf : ByteBuf)
  | timer (timerId : ℕ)

variable (pl : WebSocketPipeline) (ll : Llhttp)

/-- Messages reaching the WebSocket handler, one after the other. -/
def handleAll (s : Session) : List Msg → Session × List WsEffect
  | [] => (s, [])
  | m :: ms => andThen (pl.handler.channelRead s m) fun s => handleAll s ms

/-- An action of the upgrade handler: a message goes through the WebSocket codec. -/
def act (ws : WebSocketCodec.CodecState) (s : Session) :
    Action → (WebSocketCodec.CodecState × Session) × List WsEffect
  | .fireRead m =>
    let r := WebSocketCodec.channelRead ws m
    let t := pl.handleAll s r.2
    ((r.1, t.1), t.2)
  | a => ((ws, s), [.context a])

def actAll (ws : WebSocketCodec.CodecState) (s : Session) :
    List Action → (WebSocketCodec.CodecState × Session) × List WsEffect
  | [] => ((ws, s), [])
  | a :: rest =>
    let r := pl.act ws s a
    let t := actAll r.1.1 r.1.2 rest
    (t.1, r.2 ++ t.2)

/-- One arriving chunk, with the effects in their order. -/
def read (st : State) (buf : ByteBuf) : Option (State × List WsEffect) :=
  (pl.http.channelRead ll st.http (.buffer buf)).map fun r =>
    let t := pl.actAll st.ws st.session (UpgradePipeline.passOn pl.upgrade.channelRead r.2)
    ({ http := r.1, ws := t.1.1, session := t.1.2 }, t.2)

def step (st : State) : Event → Option (State × List WsEffect)
  | .chunk buf => pl.read ll st buf
  | .timer timerId =>
    let r := pl.handler.fireTimer st.session timerId
    some ({ st with session := r.1 }, r.2)

/-- A run with the trace of its effects; `none` where the HTTP codec does something undefined. -/
def run (st : State) : List Event → Option (State × List WsEffect)
  | [] => some (st, [])
  | ev :: evs => (pl.step ll st ev).bind fun r => (run r.1 evs).map fun t => (t.1, r.2 ++ t.2)

theorem actAll_codec (ws : WebSocketCodec.CodecState) (s : Session) (actions : List Action) :
    (pl.actAll ws s actions).1.1 = (UpgradePipeline.wsReadAll ws (firedMessages actions)).1 := by
  induction actions generalizing ws s with
  | nil => rfl
  | cons a rest ih =>
    rw [actAll, ih]
    cases a <;> rfl

/-- The codecs do what they do without a handler behind them. -/
theorem read_codecs (st : State) (buf : ByteBuf) :
    (pl.read ll st buf).map (fun r => r.1.toState) =
      (pl.toUpgradePipeline.read ll st.toState buf).map UpgradePipeline.ReadResult.state := by
  rw [read, UpgradePipeline.read, Option.map_map, Option.map_map]
  refine congrArg (Option.map · _) (funext fun r => ?_)
  exact congrArg (UpgradePipeline.State.mk r.1) (pl.actAll_codec _ _ _)

/-! ## What comes first -/

/-- The answer to an upgrade request. -/
def switches : WsEffect → Bool
  | .context (.writeAndFlush resp) => resp.status = .switchingProtocols
  | _ => false

/-- What belongs to a WebSocket: its callbacks, its ping timer and its frames. -/
def webSocket : WsEffect → Bool
  | .onOpen | .onMessage _ | .onBinary _ | .fireWrite _ | .runAfter _ .ping _ => true
  | _ => false

/-- The request that the chunk completes, if the HTTP codec takes the chunk. -/
def frontRequest (st : State) (buf : ByteBuf) : Option HttpRequest :=
  pl.http.frontRequest ll st.http.request (st.http.leftover.readable ++ buf.readable)

/-- Nothing is delivered: the bytes complete no WebSocket message, or no request within the
limits. -/
def Silent (st : State) : Event → Prop
  | .chunk buf =>
    Passes st.http buf ∧ (WebSocketCodec.frameDecoder.drain st.ws.toFragments
        (st.ws.leftover.readable ++ buf.readable)).out = [] ∨
      ¬ Passes st.http buf ∧ pl.frontRequest ll st buf = none
  | .timer _ => True

/-- The first request that the chunk completes asks for an upgrade. -/
def Upgrades (st : State) : Event → Prop
  | .chunk buf =>
    ¬ Passes st.http buf ∧ ∃ req, pl.frontRequest ll st buf = some req ∧ pl.upgrade.Accepts req
  | .timer _ => False

/-- Until an upgrade request comes, nothing is delivered. -/
def Awaits (st : State) : List Event → Prop
  | [] => True
  | ev :: evs =>
    pl.Upgrades ll st ev ∨
      pl.Silent ll st ev ∧ ∀ r, pl.step ll st ev = some r → Awaits r.1 evs

/-- The WebSocket handler has seen no message. -/
structure Unopened (st : State) : Prop where
  opened : st.session.ws.opened = false
  timers : st.session.timers = []

variable {pl ll}

theorem passOn_plain {before : List Action} (h : ∀ a ∈ before, HttpServerCodec.plain a = true)
    (f : Msg → List Action) (rest : List Action) :
    UpgradePipeline.passOn f (before ++ rest) = before ++ UpgradePipeline.passOn f rest := by
  induction before with
  | nil => rfl
  | cons a before ih =>
    obtain ⟨ha, hbefore⟩ := List.forall_mem_cons.mp h
    rw [List.cons_append, List.cons_append, ← ih hbefore]
    cases a with
    | fireRead m => cases ha
    | _ => rfl

theorem actAll_plain {before : List Action} (h : ∀ a ∈ before, HttpServerCodec.plain a = true)
    (ws : WebSocketCodec.CodecState) (s : Session) (rest : List Action) :
    pl.actAll ws s (before ++ rest) =
      ((pl.actAll ws s rest).1, before.map .context ++ (pl.actAll ws s rest).2) := by
  induction before with
  | nil => rfl
  | cons a before ih =>
    obtain ⟨ha, hbefore⟩ := List.forall_mem_cons.mp h
    cases a with
    | fireRead m => cases ha
    | _ =>
      rw [List.cons_append, actAll]
      simp only [act, ih hbefore]
      rfl

theorem quiet_of_plain {before : List Action} (h : ∀ a ∈ before, HttpServerCodec.plain a = true) :
    ∀ e ∈ before.map WsEffect.context, switches e = false ∧ webSocket e = false := by
  intro e he
  obtain ⟨a, ha, rfl⟩ := List.mem_map.mp he
  have hplain := h a ha
  cases a with
  | fireRead m => cases hplain
  | writeAndFlush resp => exact ⟨by simpa [HttpServerCodec.plain, switches] using hplain, rfl⟩
  | _ => exact ⟨rfl, rfl⟩

/-- The first message opens the WebSocket. -/
theorem not_guarded_handleAll {s : Session} (h : s.ws.opened = false) (m : Msg) (ms : List Msg)
    (later : List WsEffect) :
    ¬ Guarded switches webSocket ((pl.handleAll s (m :: ms)).2 ++ later) := by
  obtain ⟨rest, hfirst⟩ := pl.handler.channelRead_unopened h m
  rw [handleAll, andThen]
  simp only [hfirst, List.cons_append, Guarded.cons_iff]
  rintro (hopen | ⟨hquiet, -⟩)
  · cases hopen
  · cases hquiet

variable {st : State} {r : State × List WsEffect}

/-- A chunk that the HTTP codec passes on goes to the WebSocket codec. -/
theorem read_passed {buf : ByteBuf} (hne : buf.readable ≠ []) (hpass : Passes st.http buf) :
    pl.read ll st buf =
      some
        ({ http := st.http, ws := (WebSocketCodec.readBuffer st.ws buf).state
           session := (pl.handleAll st.session
             ((WebSocketCodec.readBuffer st.ws buf).fired.map .frame)).1 },
          (pl.handleAll st.session
            ((WebSocketCodec.readBuffer st.ws buf).fired.map .frame)).2) := by
  have hbuf : buf.readableBytes ≠ 0 := fun h => hne ((ByteBuf.readable_eq_nil_iff _).mpr h)
  have hchannel : pl.http.channelRead ll st.http (.buffer buf) =
      some (st.http, [.fireRead (.buffer buf)]) :=
    HttpServerCodec.channelRead_of_other hpass.1 hpass.2
  rw [read, hchannel]
  simp [UpgradePipeline.passOn, WebSocketUpgradeHandler.channelRead, actAll, act,
    WebSocketCodec.channelRead, hbuf]

theorem step_silent {ev : Event} (hst : Unopened st)
    (hne : ∀ buf, ev = .chunk buf → buf.readable ≠ []) (hsilent : pl.Silent ll st ev)
    (hstep : pl.step ll st ev = some r) :
    (∀ e ∈ r.2, switches e = false ∧ webSocket e = false) ∧ Unopened r.1 := by
  cases ev with
  | timer timerId =>
    obtain rfl := Option.some.inj hstep
    have hnone : pl.handler.fireTimer st.session timerId = (st.session, []) := by
      rw [WebSocketHandler.fireTimer, hst.timers]
      rfl
    rw [hnone]
    exact ⟨List.forall_mem_nil _, hst.opened, hst.timers⟩
  | chunk buf =>
    obtain ⟨hpass, hout⟩ | ⟨htaken, hfront⟩ := hsilent
    · have hfired := (WebSocketCodec.readBuffer_drains st.ws buf).1
      rw [step, read_passed (hne buf rfl) hpass, hfired, hout] at hstep
      obtain rfl := Option.some.inj hstep
      exact ⟨List.forall_mem_nil _, hst.opened, hst.timers⟩
    · obtain ⟨⟨http, actions⟩, hchannel, rfl⟩ := Option.map_eq_some_iff.mp hstep
      rcases HttpServerCodec.channelRead_front (hne buf rfl) htaken hchannel with
        ⟨-, hplain⟩ | ⟨req, _, _, hsome, -⟩
      · have hpassed := passOn_plain hplain pl.upgrade.channelRead []
        have hacted : pl.actAll st.ws st.session (actions ++ []) = _ :=
          actAll_plain hplain st.ws st.session []
        simp only [UpgradePipeline.passOn, List.flatMap_nil, List.append_nil] at hpassed
        simp only [List.append_nil, actAll] at hacted
        simp only [UpgradePipeline.passOn, hpassed, hacted]
        exact ⟨quiet_of_plain hplain, hst.opened, hst.timers⟩
      · cases hfront.symm.trans hsome

/-- What a chunk does that completes a request: it is noted, and goes to the upgrade handler. -/
theorem read_request {buf : ByteBuf} (hne : buf.readable ≠ []) (htaken : ¬ Passes st.http buf)
    {req : HttpRequest} (hfront : pl.frontRequest ll st buf = some req)
    (hread : pl.read ll st buf = some r) :
    ∃ before later : List Action, (∀ a ∈ before, HttpServerCodec.plain a = true) ∧
      r.2 = before.map .context ++
        (pl.actAll st.ws st.session (pl.upgrade.channelRead (.request req) ++ later)).2 := by
  obtain ⟨⟨http, actions⟩, hchannel, rfl⟩ := Option.map_eq_some_iff.mp hread
  rcases HttpServerCodec.channelRead_front hne htaken hchannel with
    ⟨hnone, -⟩ | ⟨req', before, later, hsome, hplain, rfl⟩
  · cases hnone.symm.trans hfront
  · obtain rfl := Option.some.inj (hsome.symm.trans hfront)
    refine ⟨before, UpgradePipeline.passOn pl.upgrade.channelRead later, hplain, ?_⟩
    rw [passOn_plain hplain, actAll_plain hplain]
    rfl

theorem step_upgrades {ev : Event} (hne : ∀ buf, ev = .chunk buf → buf.readable ≠ [])
    (hupgrades : pl.Upgrades ll st ev) (hstep : pl.step ll st ev = some r) :
    Guarded switches webSocket r.2 ∧ ∃ e ∈ r.2, switches e = true := by
  cases ev with
  | timer timerId => cases hupgrades
  | chunk buf =>
    obtain ⟨htaken, req, hfront, haccepts⟩ := hupgrades
    obtain ⟨before, later, hplain, htrace⟩ := read_request (hne buf rfl) htaken hfront hstep
    obtain ⟨key, proto, hanswer⟩ := WebSocketUpgradeHandler.channelRead_accepts haccepts
    have hswitch : switches (.context
        (.writeAndFlush (WebSocketUpgradeHandler.switchProtocols key proto))) = true := by
      simp only [switches, WebSocketUpgradeHandler.switchProtocols]
      split <;> rfl
    rw [hanswer] at htrace
    rw [htrace, Guarded.append_iff_of_quiet (quiet_of_plain hplain)]
    constructor
    · simp only [List.cons_append, actAll, act, List.nil_append, Guarded.cons_iff]
      exact .inr ⟨rfl, .inl hswitch⟩
    · refine ⟨_, List.mem_append_right _ ?_, hswitch⟩
      simp [actAll, act]

theorem step_delivers {ev : Event} (hst : Unopened st)
    (hne : ∀ buf, ev = .chunk buf → buf.readable ≠ []) (hupgrades : ¬ pl.Upgrades ll st ev)
    (hsilent : ¬ pl.Silent ll st ev) (hstep : pl.step ll st ev = some r) :
    ¬ Guarded switches webSocket r.2 := by
  cases ev with
  | timer timerId => exact absurd trivial hsilent
  | chunk buf =>
    by_cases hpass : Passes st.http buf
    · have hfired := (WebSocketCodec.readBuffer_drains st.ws buf).1
      rw [step, read_passed (hne buf rfl) hpass, hfired] at hstep
      obtain rfl := Option.some.inj hstep
      cases hout : (WebSocketCodec.frameDecoder.drain st.ws.toFragments
          (st.ws.leftover.readable ++ buf.readable)).out with
      | nil => exact absurd (.inl ⟨hpass, hout⟩) hsilent
      | cons f fs =>
        have hopens : ¬ Guarded switches webSocket ((pl.handleAll st.session _).2 ++ []) :=
          not_guarded_handleAll hst.opened (.frame f) (fs.map .frame) []
        rwa [List.append_nil] at hopens
    · cases hfront : pl.frontRequest ll st buf with
      | none => exact absurd (.inr ⟨hpass, hfront⟩) hsilent
      | some req =>
        have hrefuses : ¬ pl.upgrade.Accepts req := fun h => hupgrades ⟨hpass, req, hfront, h⟩
        obtain ⟨before, later, hplain, htrace⟩ := read_request (hne buf rfl) hpass hfront hstep
        obtain ⟨req', hpassed⟩ := WebSocketUpgradeHandler.channelRead_refuses hrefuses
        rw [hpassed] at htrace
        rw [htrace, Guarded.append_iff_of_quiet (quiet_of_plain hplain)]
        exact not_guarded_handleAll hst.opened (.request req') [] _

/-- **The handshake comes first.** On a connection whose WebSocket handler has seen nothing, no
WebSocket event comes before an upgrade request has been answered, if and only if until then
every chunk leaves the codecs without a message to pass on, or its first request asks for the
upgrade. -/
theorem run_guarded_iff {events : List Event} (hst : Unopened st)
    (hne : ∀ buf, .chunk buf ∈ events → buf.readable ≠ [])
    (hrun : pl.run ll st events = some r) :
    Guarded switches webSocket r.2 ↔ pl.Awaits ll st events := by
  induction events generalizing st r with
  | nil =>
    obtain rfl := Option.some.inj hrun
    exact iff_of_true Guarded.nil trivial
  | cons ev events ih =>
    obtain ⟨first, hstep, hrest⟩ := Option.bind_eq_some_iff.mp hrun
    obtain ⟨⟨st', later⟩, hlater, rfl⟩ := Option.map_eq_some_iff.mp hrest
    have hne' : ∀ buf, ev = .chunk buf → buf.readable ≠ [] := by
      rintro buf rfl
      exact hne buf List.mem_cons_self
    rw [Awaits]
    by_cases hupgrades : pl.Upgrades ll st ev
    · obtain ⟨hguarded, hopen⟩ := step_upgrades hne' hupgrades hstep
      exact iff_of_true (Guarded.append_iff.mpr ⟨hguarded, .inl hopen⟩) (.inl hupgrades)
    rw [or_iff_right hupgrades]
    by_cases hsilent : pl.Silent ll st ev
    · obtain ⟨hquiet, hst'⟩ := step_silent hst hne' hsilent hstep
      rw [Guarded.append_iff_of_quiet hquiet,
        ih hst' (fun buf hbuf => hne buf (List.mem_cons_of_mem _ hbuf)) hlater,
        and_iff_right hsilent]
      constructor
      · intro hawaits r hr
        obtain rfl := Option.some.inj (hstep.symm.trans hr)
        exact hawaits
      · intro hall
        exact hall first hstep
    · have hdelivers := step_delivers hst hne' hupgrades hsilent hstep
      refine iff_of_false (fun h => hdelivers (Guarded.append_iff.mp h).1) fun h => hsilent h.1

open UpgradePipeline (upgradePipeline upgradeRequest maskedText)

/-- A server for `/ws` that pings every 30 seconds. -/
def webSocketPipeline : WebSocketPipeline := { upgradePipeline with handler := .create 30 10 }

/-- An upgrade request, and a text frame behind it. -/
theorem run_guarded_upgrade :
    ∃ r, webSocketPipeline.run (upgradeRequest.llhttp 1 1 1) {}
        [.chunk (.copyOf upgradeRequest.text), .chunk (.copyOf maskedText.wire)] = some r ∧
      Guarded switches webSocket r.2 := by
  have hsome : (webSocketPipeline.run (upgradeRequest.llhttp 1 1 1) {}
      [.chunk (.copyOf upgradeRequest.text), .chunk (.copyOf maskedText.wire)]).isSome = true := by
    decide +kernel
  obtain ⟨r, hrun⟩ := Option.isSome_iff_exists.mp hsome
  refine ⟨r, hrun, (run_guarded_iff ⟨rfl, rfl⟩ ?_ hrun).mpr (.inl ⟨fun h => ?_, ?_⟩)⟩
  · intro buf hbuf
    simp only [List.mem_cons, Event.chunk.injEq, List.not_mem_nil, or_false] at hbuf
    rcases hbuf with rfl | rfl <;> decide +kernel
  · cases h.2
  · have hany : (webSocketPipeline.frontRequest (upgradeRequest.llhttp 1 1 1) {}
        (.copyOf upgradeRequest.text)).any
          (fun req => decide (webSocketPipeline.upgrade.Accepts req)) = true := by
      decide +kernel
    obtain ⟨req, hfront, haccepts⟩ := Option.any_eq_true _ _ |>.mp hany
    exact ⟨req, hfront, of_decide_eq_true haccepts⟩

/-- A text frame, or a plain request, as the first thing that a client sends. -/
theorem not_guarded_first :
    (webSocketPipeline.run (rootRequest.llhttp 1 1 1) {} [.chunk (.copyOf maskedText.wire)]).map
        (fun r => decide (Guarded switches webSocket r.2)) = some false ∧
      (webSocketPipeline.run (rootRequest.llhttp 1 1 1) {} [.chunk (.copyOf rootRequest.text)]).map
        (fun r => decide (Guarded switches webSocket r.2)) = some false :=
  ⟨by decide +kernel, by decide +kernel⟩

end WebSocketPipeline

end XNetty
