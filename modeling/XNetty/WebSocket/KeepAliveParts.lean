import XNetty.WebSocket.KeepAlive

/-!
# The handler's parts on the wheel

What `cancelTimers`, `schedulePing` and the callback of the ping timer do to the wheel and to the
handler's timers in it.

## Main definitions

* `KeepAlive.rearmed`, `KeepAlive.pinging` — the handler before it adds a timer.
* `KeepAlive.Part` — code of the handler, which may run part by part.
* `KeepAlive.channelRead_alone` — the machine's `channelRead` is the handler's.
-/

namespace XNetty

open Event WebSocketHandler

namespace KeepAlive

variable {handler : WebSocketHandler} {m m' m'' : KeepAlive}

/-! ### One part after another -/

/-- The effect adds a timer. -/
def addsTimer : WsEffect → Bool
  | .runAfter _ _ _ => true
  | _ => false

/-- Code of the handler: it reads its state and the loop's next id only, and its calls to
`runAfter` are those it reports. -/
structure Part (f : Session → Session × List WsEffect) : Prop where
  reads : ∀ {s s' : Session}, s.ws = s'.ws → s.nextTimerId = s'.nextTimerId →
    (f s).1.ws = (f s').1.ws ∧ (f s).2 = (f s').2
  counts : ∀ s, (f s).1.nextTimerId = s.nextTimerId + (f s).2.countP addsTimer

theorem Part.andThen {f g : Session → Session × List WsEffect} (hf : Part f) (hg : Part g) :
    Part fun s => WebSocketHandler.andThen (f s) g where
  reads {s s'} hws hid := by
    obtain ⟨hfws, hfeffects⟩ := hf.reads hws hid
    have hfid : (f s).1.nextTimerId = (f s').1.nextTimerId := by
      rw [hf.counts, hf.counts, hid, hfeffects]
    obtain ⟨hgws, hgeffects⟩ := hg.reads hfws hfid
    exact ⟨hgws, congrArg₂ (· ++ ·) hfeffects hgeffects⟩
  counts s := by
    simp only [WebSocketHandler.andThen, List.countP_append, hg.counts, hf.counts, Nat.add_assoc]

theorem part_cancelPing : Part cancelPing where
  reads {s s'} hws hid := by
    unfold cancelPing
    rw [hws]
    split <;> simp [hws]
  counts s := by
    unfold cancelPing
    split <;> simp [addsTimer, Session.cancelTimer]

theorem part_cancelPong : Part cancelPong where
  reads {s s'} hws hid := by
    unfold cancelPong
    rw [hws]
    split <;> simp [hws]
  counts s := by
    unfold cancelPong
    split <;> simp [addsTimer, Session.cancelTimer]

/-- Code that only sets fields of the state, and calls nothing of the loop. -/
theorem part_set (set : WsState → WsState) {effects : List WsEffect}
    (hnone : effects.countP addsTimer = 0) :
    Part fun s => ({ s with ws := set s.ws }, effects) where
  reads hws _ := ⟨congrArg set hws, rfl⟩
  counts s := by simp only [hnone, Nat.add_zero]

theorem part_unwaiting : Part fun s => ({ s with ws := { s.ws with waitingPong := false } }, []) :=
  part_set (fun ws => { ws with waitingPong := false }) rfl

theorem part_cancelTimers : Part cancelTimers :=
  (part_cancelPing.andThen part_cancelPong).andThen part_unwaiting

theorem part_schedulePing (handler : WebSocketHandler) : Part handler.schedulePing := by
  refine part_cancelTimers.andThen ⟨fun {s s'} hws hid => ?_, fun s => ?_⟩
  · split <;> simp [hws, hid]
  · split <;> simp [Session.runAfter, addsTimer]

theorem perform_ws (m : KeepAlive) (ws : WsState) (e : WsEffect) :
    ({ m with ws } : KeepAlive).perform e = { m.perform e with ws } := by
  cases e with
  | fireWrite frame =>
    simp only [perform]
    split <;> rfl
  | _ => rfl

theorem foldl_perform_ws (es : List WsEffect) (m : KeepAlive) (ws : WsState) :
    es.foldl perform { m with ws } = { es.foldl perform m with ws } := by
  induction es generalizing m with
  | nil => rfl
  | cons e es ih => rw [List.foldl_cons, perform_ws, ih, List.foldl_cons]

theorem nextId_foldl_perform (es : List WsEffect) (m : KeepAlive) :
    (es.foldl perform m).wheel.nextId = m.wheel.nextId + es.countP addsTimer := by
  induction es generalizing m with
  | nil => rfl
  | cons e es ih =>
    have hone : (m.perform e).wheel.nextId = m.wheel.nextId + if addsTimer e then 1 else 0 := by
      cases e with
      | fireWrite frame =>
        rw [perform]
        split <;> rfl
      | _ => rfl
    rw [List.foldl_cons, ih, hone, List.countP_cons]
    omega

/-- The part of the session that the handler's code reads. -/
def session (m : KeepAlive) : Session := { ws := m.ws, nextTimerId := m.wheel.nextId }

theorem act_eq (m : KeepAlive) (f : Session → Session × List WsEffect) :
    m.act f = { (f m.session).2.foldl perform m with ws := (f m.session).1.ws } :=
  foldl_perform_ws _ _ _

theorem act_congr {f g : Session → Session × List WsEffect} (h : f m.session = g m.session) :
    m.act f = m.act g := by
  rw [act_eq, act_eq, h]

/-- **One part after another**, each on the wheel that the one before it leaves. -/
theorem act_andThen {f g : Session → Session × List WsEffect} (hf : Part f) (hg : Part g)
    (m : KeepAlive) : m.act (fun s => andThen (f s) g) = (m.act f).act g := by
  have hws : (f m.session).1.ws = (m.act f).session.ws := by
    rw [act_eq]
    rfl
  have hnext : (f m.session).1.nextTimerId = (m.act f).session.nextTimerId := by
    rw [hf.counts, act_eq]
    exact (nextId_foldl_perform _ m).symm
  obtain ⟨hgws, hgeffects⟩ := hg.reads hws hnext
  have hfirst : ∀ (es : List WsEffect) (ws : WsState),
      ({ es.foldl perform (m.act f) with ws } : KeepAlive) =
        { es.foldl perform ((f m.session).2.foldl perform m) with ws } := fun es ws => by
    rw [act_eq, foldl_perform_ws]
  rw [act_eq (m.act f), hfirst, act_eq, andThen, List.foldl_append, hgws, hgeffects]

/-! ### The handler's parts -/

/-- The handler's state when no timer runs for it. -/
def idle (ws : WsState) : WsState :=
  { ws with waitingPong := false, pingTimerId := 0, pongTimerId := 0 }

theorem act_cancelTimers (m : KeepAlive) :
    m.act cancelTimers =
      { m with
        ws := idle m.ws
        wheel := (m.wheel.cancelSet m.ws.pingTimerId).cancelSet m.ws.pongTimerId } := by
  by_cases hping : m.ws.pingTimerId = 0 <;> by_cases hpong : m.ws.pongTimerId = 0 <;>
    simp [act, cancelTimers, cancelPing, cancelPong, andThen, hping, hpong, perform, idle,
      TimerWheel.cancelSet, Session.cancelTimer]

theorem act_channelInactive (m : KeepAlive) : m.act channelInactive = m.act cancelTimers := by
  simp [act, channelInactive, andThen, List.foldl_append, perform]

/-- The handler has cancelled its timers, and has the id of the ping timer it is to start. -/
def rearmed (m : KeepAlive) : KeepAlive :=
  { m.act cancelTimers with ws := { idle m.ws with pingTimerId := m.wheel.nextId } }

@[simp] theorem rearmed_live (m : KeepAlive) : m.rearmed.live = (m.act cancelTimers).live := rfl

@[simp] theorem rearmed_taken (m : KeepAlive) : m.rearmed.taken = m.taken := by
  simp [rearmed, act_cancelTimers, taken]

@[simp] theorem rearmed_tasks (m : KeepAlive) : m.rearmed.tasks = m.tasks := by
  simp [rearmed, act_cancelTimers]

@[simp] theorem rearmed_history (m : KeepAlive) : m.rearmed.history = m.history := by
  simp [rearmed, act_cancelTimers]

@[simp] theorem rearmed_inactive (m : KeepAlive) : m.rearmed.inactive = m.inactive := by
  simp [rearmed, act_cancelTimers]

@[simp] theorem rearmed_nextId (m : KeepAlive) : m.rearmed.wheel.nextId = m.wheel.nextId := by
  simp [rearmed, act_cancelTimers]

theorem Sane.rearmed (hm : m.Sane) : m.rearmed.Sane := (hm.act cancelTimers).of_eq rfl rfl rfl

theorem act_schedulePing (m : KeepAlive) :
    m.act handler.schedulePing =
      if handler.pingIntervalMs = 0 then m.act cancelTimers
      else m.rearmed.perform (.runAfter handler.pingIntervalMs .ping m.wheel.nextId) := by
  by_cases hzero : handler.pingIntervalMs = 0
  · rw [if_pos hzero]
    simp [act, schedulePing, andThen, hzero]
  · rw [if_neg hzero, KeepAlive.rearmed, act_cancelTimers]
    by_cases hping : m.ws.pingTimerId = 0 <;> by_cases hpong : m.ws.pongTimerId = 0 <;>
      simp [act, schedulePing, cancelTimers, cancelPing, cancelPong, andThen, hping, hpong, perform,
        idle, TimerWheel.cancelSet, Session.cancelTimer, hzero, Session.runAfter]

/-- The ping is written, and the handler has the id of the pong timer it is to start. -/
def pinging (m : KeepAlive) : KeepAlive :=
  { m with
    ws := { m.ws with waitingPong := true, pingTimerId := 0, pongTimerId := m.wheel.nextId }
    history := .pinged m.wheel.nextId :: m.history }

@[simp] theorem pinging_live (m : KeepAlive) : m.pinging.live = m.live := rfl

@[simp] theorem pinging_taken (m : KeepAlive) : m.pinging.taken = m.taken := rfl

theorem Sane.pinging (hm : m.Sane) : m.pinging.Sane := hm.of_eq rfl rfl rfl

theorem act_pingTimer (m : KeepAlive) :
    m.act handler.pingTimer =
      if m.ws.waitingPong then m
      else m.pinging.perform (.runAfter handler.pongTimeoutMs .pongTimeout m.wheel.nextId) := by
  cases hwaiting : m.ws.waitingPong <;>
    simp [act, pingTimer, hwaiting, perform, KeepAlive.pinging]

theorem perform_fireWrite (m : KeepAlive) {frame : WebSocketFrame} (h : frame.opcode ≠ .ping) :
    m.perform (.fireWrite frame) = m := if_neg h

/-- The answer to a ping starts no timeout. -/
@[simp] theorem perform_pongOf (m : KeepAlive) (frame : WebSocketFrame) :
    m.perform (.fireWrite (pongOf frame)) = m :=
  perform_fireWrite m (show WebSocketOpcode.pong ≠ .ping by decide)

/-- **Cancelling** leaves no timer of the handler's that it knows by an id other than `0`. -/
theorem mem_live_cancelTimers (hm : m.Sane) {id : ℕ} :
    id ∈ (m.act cancelTimers).live ↔ id ∈ m.live ∧
      (m.ws.pingTimerId = 0 ∨ id ≠ m.ws.pingTimerId) ∧
      (m.ws.pongTimerId = 0 ∨ id ≠ m.ws.pongTimerId) := by
  rw [act_cancelTimers]
  simp only [live, TimerWheel.uncanceled_cancelSet (hm.valid.cancelSet _),
    TimerWheel.uncanceled_cancelSet hm.valid, List.mem_filter, decide_eq_true_eq]
  tauto

theorem live_cancelTimers_subperm (hm : m.Sane) : (m.act cancelTimers).live.Subperm m.live := by
  rw [act_cancelTimers]
  simp only [live, TimerWheel.uncanceled_cancelSet (hm.valid.cancelSet _),
    TimerWheel.uncanceled_cancelSet hm.valid]
  exact ((List.filter_sublist.trans List.filter_sublist).filter _).subperm

/-- A timer that the handler adds. -/
theorem live_runAfter (hm : m.Sane) (delayMs : ℕ) (task : TimerTask) (timerId : ℕ) :
    (m.perform (.runAfter delayMs task timerId)).live.Perm (m.wheel.nextId :: m.live) := by
  have hperm := (TimerWheel.uncanceled_addTimer hm.valid delayMs (some { calls := [] })).filter
    fun id => (Function.update m.tasks m.wheel.nextId (some task) id).isSome
  have hlive : (m.wheel.uncanceled.filter fun id =>
      (Function.update m.tasks m.wheel.nextId (some task) id).isSome) = m.live := by
    refine List.filter_congr fun id hid => ?_
    rw [Function.update_of_ne (TimerWheel.lt_of_mem_uncanceled hm.valid hid).ne]
  rw [List.filter_cons_of_pos (by simp), hlive] at hperm
  exact hperm

theorem taken_runAfter (hm : m.Sane) (delayMs : ℕ) (task : TimerTask) (timerId : ℕ) :
    (m.perform (.runAfter delayMs task timerId)).taken = m.taken := by
  refine List.filter_congr fun id hid => ?_
  obtain ⟨e, he, rfl⟩ := List.mem_map.mp hid
  have hne : e.id ≠ m.wheel.nextId := (hm.due_issued e he).ne
  simp [perform, TimerWheel.addTimer, hne]
/-! ### `channelRead` -/

theorem part_effects {effects : List WsEffect} (hnone : effects.countP addsTimer = 0) :
    Part fun s => (s, effects) :=
  part_set id hnone

theorem part_ite {f g : Session → Session × List WsEffect} (p : WsState → Prop) [DecidablePred p]
    (hf : Part f) (hg : Part g) : Part fun s => if p s.ws then f s else g s where
  reads {s s'} hws hid := by
    rw [hws]
    split
    · exact hf.reads hws hid
    · exact hg.reads hws hid
  counts s := by
    split
    · exact hf.counts s
    · exact hg.counts s

theorem act_ite (p : WsState → Prop) [DecidablePred p] (f g : Session → Session × List WsEffect) :
    m.act (fun s => if p s.ws then f s else g s) = if p m.ws then m.act f else m.act g := by
  by_cases hp : p m.ws
  · rw [if_pos hp]
    exact act_congr (if_pos hp)
  · rw [if_neg hp]
    exact act_congr (if_neg hp)

theorem part_greet (handler : WebSocketHandler) : Part fun s => if !s.ws.opened then
      andThen ({ s with ws := { s.ws with opened := true } }, [.onOpen]) handler.schedulePing
    else (s, []) :=
  part_ite (fun ws => !ws.opened) ((part_set (fun ws => { ws with opened := true }) rfl).andThen
    (part_schedulePing handler)) (part_effects rfl)

theorem act_greet (m : KeepAlive) :
    m.act (fun s => if !s.ws.opened then
        andThen ({ s with ws := { s.ws with opened := true } }, [.onOpen]) handler.schedulePing
      else (s, [])) = m.greet handler [] := by
  have hopen : Part fun s => ({ s with ws := { s.ws with opened := true } }, [WsEffect.onOpen]) :=
    part_set (fun ws => { ws with opened := true }) rfl
  rw [act_ite fun ws => !ws.opened, act_andThen hopen (part_schedulePing handler)]
  rfl

section Frames

variable (handler) (frame : WebSocketFrame)

/-- A frame that is not the loop's: something is done with it, and the next ping is scheduled. -/
theorem part_answer {e : WsEffect} (he : addsTimer e = false) :
    Part fun s => andThen (s, [e]) handler.schedulePing := by
  have hone : Part fun s => (s, [e]) := part_effects (by simp [he])
  exact hone.andThen (part_schedulePing handler)

theorem act_answer (m : KeepAlive) {e : WsEffect} (he : addsTimer e = false) :
    m.act (fun s => andThen (s, [e]) handler.schedulePing) =
      (m.perform e).act handler.schedulePing := by
  have hone : Part fun s => (s, [e]) := part_effects (by simp [he])
  rw [act_andThen hone (part_schedulePing handler)]
  rfl

theorem part_pong : Part fun s => andThen (cancelTimers s) fun s =>
    handler.schedulePing { s with ws := { s.ws with waitingPong := false } } :=
  part_cancelTimers.andThen (part_unwaiting.andThen (part_schedulePing handler))

/-- Behind `cancelTimers`, the handler waits for no PONG already. -/
theorem act_pong (m : KeepAlive) :
    m.act (fun s => andThen (cancelTimers s) fun s =>
      handler.schedulePing { s with ws := { s.ws with waitingPong := false } }) =
        (m.act cancelTimers).act handler.schedulePing := by
  have hpong : Part fun s : Session => handler.schedulePing
      { s with ws := { s.ws with waitingPong := false } } :=
    part_unwaiting.andThen (part_schedulePing handler)
  rw [act_andThen part_cancelTimers hpong]
  refine act_congr ?_
  rw [act_cancelTimers]
  rfl

theorem part_close : Part fun s => andThen (cancelTimers s) fun s =>
    (s, [.freeSubscriber, .fireWrite (closeRespOf frame), .onClose 0 frame.payload]) :=
  part_cancelTimers.andThen (part_effects rfl)

theorem act_close (m : KeepAlive) :
    m.act (fun s => andThen (cancelTimers s) fun s =>
      (s, [.freeSubscriber, .fireWrite (closeRespOf frame), .onClose 0 frame.payload])) =
        m.act cancelTimers := by
  have hclose : Part fun s => (s, [.freeSubscriber, .fireWrite (closeRespOf frame),
      .onClose 0 frame.payload]) := part_effects rfl
  rw [act_andThen part_cancelTimers hclose]
  have hne : (closeRespOf frame).opcode ≠ .ping := show WebSocketOpcode.close ≠ .ping by decide
  exact perform_fireWrite _ hne

theorem part_ponged : Part fun s => if frame.opcode = .pong then
      andThen (cancelTimers s) fun s =>
        handler.schedulePing { s with ws := { s.ws with waitingPong := false } }
    else (s, []) :=
  part_ite (fun _ => frame.opcode = .pong) (part_pong handler) (part_effects rfl)

theorem part_answered : Part fun s =>
    if frame.opcode = .ping then andThen (s, [.fireWrite (pongOf frame)]) handler.schedulePing
    else if frame.opcode = .text then
      andThen (s, [.onMessage frame.payload]) handler.schedulePing
    else if frame.opcode = .binary then
      andThen (s, [.onBinary frame.payload]) handler.schedulePing
    else if frame.opcode = .close then
      andThen (cancelTimers s) fun s =>
        (s, [.freeSubscriber, .fireWrite (closeRespOf frame), .onClose 0 frame.payload])
    else (s, []) :=
  part_ite (fun _ => frame.opcode = .ping) (part_answer handler rfl)
    (part_ite (fun _ => frame.opcode = .text) (part_answer handler rfl)
      (part_ite (fun _ => frame.opcode = .binary) (part_answer handler rfl)
        (part_ite (fun _ => frame.opcode = .close) (part_close frame) (part_effects rfl))))

theorem act_onFrame (m : KeepAlive) :
    m.act (handler.onFrame · frame) = m.onFrame handler frame [] := by
  refine (act_andThen (part_ponged handler frame) (part_answered handler frame) m).trans ?_
  rw [act_ite fun _ => frame.opcode = .pong, act_ite fun _ => frame.opcode = .ping,
    act_ite fun _ => frame.opcode = .text, act_ite fun _ => frame.opcode = .binary,
    act_ite fun _ => frame.opcode = .close, act_pong, act_close, act_answer handler _ rfl,
    act_answer handler _ rfl, act_answer handler _ rfl, perform_pongOf]
  simp only [onFrame, ite_or, List.foldl_nil]
  rfl

end Frames

/-- **The handler of the source** is the machine's, for an application that leaves the loop and
the connection alone. -/
theorem channelRead_alone (handler : WebSocketHandler) (m : KeepAlive) :
    (∀ frame, m.channelRead handler (.frame frame) [] [] =
      (m.act (handler.channelRead · (.frame frame))).done frame.opcode) ∧
    ∀ msg, (∀ frame, msg ≠ .frame frame) →
      m.channelRead handler msg [] [] = m.act (handler.channelRead · msg) := by
  constructor
  · intro frame
    have hsignal : Part fun s => (s, [WsEffect.signalActivity]) := part_effects rfl
    have hframe : Part fun s => handler.onFrame s frame :=
      (part_ponged handler frame).andThen (part_answered handler frame)
    have hact : m.act (handler.channelRead · (.frame frame)) =
        (m.greet handler []).onFrame handler frame [] := by
      refine (act_andThen (part_greet handler) (hsignal.andThen hframe) m).trans ?_
      rw [act_greet, act_andThen hsignal hframe, act_onFrame]
      rfl
    rw [hact]
    rfl
  · intro msg hmsg
    have hread : Part fun s => (s, [WsEffect.fireRead msg]) := part_effects rfl
    have hact : m.act (handler.channelRead · msg) = m.greet handler [] := by
      refine Eq.trans (act_congr ?_) ((act_andThen (part_greet handler) hread m).trans ?_)
      · cases msg with
        | frame frame => exact absurd rfl (hmsg frame)
        | _ => rfl
      · rw [act_greet]
        rfl
    rw [hact]
    cases msg with
    | frame frame => exact absurd rfl (hmsg frame)
    | _ => rfl

end KeepAlive

end XNetty
