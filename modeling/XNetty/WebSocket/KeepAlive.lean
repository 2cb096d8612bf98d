import XNetty.Event.TimerOnce
import XNetty.WebSocket.Handler

/-!
# Keep-alive on the loop's wheel

One connection with a `WebSocketHandler`, on a loop whose timer wheel it shares with whatever else
runs there. Frames come between ticks. A tick takes its due entries out of the wheel and runs them
one by one; the wheel may be used and the connection closed between any two of them.

## Main definitions

* `KeepAlive` — the handler's state, the wheel, and the handler's timers by their ids.
* `KeepAlive.step` — a message, a use of the loop from outside, or a part of a tick.
* `KeepAlive.Sane` — the handler's timers are timers of the wheel.
-/

namespace XNetty

open Event WebSocketHandler

/-! ### Timers in the wheel -/

namespace Event.TimerWheel

variable {w : TimerWheel}

/-- The timers in the wheel that are not cancelled. -/
def uncanceled (w : TimerWheel) : List ℕ :=
  (w.entries.filter fun e => !e.canceled).map TimerEntry.id

theorem uncanceled_addTimer (hw : w.Valid) (delayMs : ℕ) (callback : Option Callback) :
    (w.addTimer delayMs callback).1.uncanceled.Perm (w.nextId :: w.uncanceled) := by
  have hperm := ((addTimer_entries hw delayMs callback).filter fun e => !e.canceled).map
    TimerEntry.id
  simpa [uncanceled, newEntry] using hperm

theorem uncanceled_cancelTimer (hw : w.Valid) (timerId : ℕ) :
    (w.cancelTimer timerId).uncanceled = w.uncanceled.filter fun id => id ≠ timerId := by
  simp only [uncanceled, cancelTimer_entries hw, List.filter_map, List.map_map, List.filter_filter]
  have hcongr : (w.entries.filter ((fun e => !e.canceled) ∘ marked timerId)) =
      w.entries.filter fun e => ((fun id => decide (id ≠ timerId)) ∘ TimerEntry.id) e
        && !e.canceled := by
    refine List.filter_congr fun e _ => ?_
    by_cases he : e.id = timerId <;> simp [marked, he]
  rw [hcongr]
  exact List.map_congr_left fun e _ => marked_id timerId e

/-- What a tick takes out of the wheel is not left in it. -/
theorem uncanceled_swapped (hw : w.Valid) :
    (w.toFire.map TimerEntry.id ++ w.swapped.uncanceled).Subperm w.uncanceled := by
  have hdue : w.toFire.filter (fun e => !e.canceled) = w.toFire := by
    refine List.filter_eq_self.mpr fun e he => ?_
    have hfired := (List.mem_filter.mp he).2
    simp only [Bool.and_eq_true] at hfired
    exact hfired.1
  obtain ⟨l, hperm, hsub⟩ := (toFire_swapped_subperm hw).filter fun e => !e.canceled
  rw [List.filter_append, hdue] at hperm
  refine ⟨l.map TimerEntry.id, ?_, hsub.map _⟩
  rw [uncanceled, ← List.map_append]
  exact hperm.map _

theorem lt_of_mem_uncanceled (hw : w.Valid) {id : ℕ} (h : id ∈ w.uncanceled) : id < w.nextId := by
  obtain ⟨e, he, rfl⟩ := List.mem_map.mp h
  exact hw.issued e (List.mem_of_mem_filter he)

@[simp] theorem uncanceled_advance (w : TimerWheel) : w.advance.uncanceled = w.uncanceled := rfl

/-- Cancelling with an id of `0` for no timer. -/
def cancelSet (w : TimerWheel) (timerId : ℕ) : TimerWheel :=
  if timerId ≠ 0 then w.cancelTimer timerId else w

theorem Valid.cancelSet (hw : w.Valid) (timerId : ℕ) : (w.cancelSet timerId).Valid := by
  unfold TimerWheel.cancelSet
  split
  · exact hw.cancelTimer timerId
  · exact hw

@[simp] theorem nextId_cancelSet (w : TimerWheel) (timerId : ℕ) :
    (w.cancelSet timerId).nextId = w.nextId := by
  unfold cancelSet
  split <;> rfl

theorem uncanceled_cancelSet (hw : w.Valid) (timerId : ℕ) :
    (w.cancelSet timerId).uncanceled =
      w.uncanceled.filter fun id => timerId = 0 ∨ id ≠ timerId := by
  by_cases hset : timerId = 0
  · simp [cancelSet, hset]
  · simp [cancelSet, hset, uncanceled_cancelTimer hw]

end Event.TimerWheel

/-! ### The machine -/

/-- What is done on the loop from the application's callbacks, or from anywhere else: the wheel is
used, or the connection closed. -/
inductive LoopUse where
  | timer (c : Call)
  | close

inductive KeepAliveEvent where
  /-- `channelRead` has handled a frame. -/
  | handled (opcode : WebSocketOpcode)
  /-- A keep-alive ping is written, to be answered before the timer of that id. -/
  | pinged (timerId : ℕ)
  /-- The callback of a pong timer closes the connection. -/
  | timedOut (timerId : ℕ)
  deriving DecidableEq

structure KeepAlive where
  ws : WsState := {}
  wheel : TimerWheel
  /-- The handler's timers. -/
  tasks : ℕ → Option TimerTask := fun _ => none
  /-- What the tick under way has still to run. -/
  firing : Option (List TimerEntry) := none
  closed : Bool := false
  /-- `channelInactive` has been called. -/
  inactive : Bool := false
  /-- The handler's context is gone, and the timers' weak pointers to it are empty. -/
  released : Bool := false
  /-- The last frame was a CLOSE. -/
  closeHandled : Bool := false
  /-- The latest event first. -/
  history : List KeepAliveEvent := []

namespace KeepAlive

def perform (m : KeepAlive) : WsEffect → KeepAlive
  | .runAfter delayMs task _ =>
    let added := m.wheel.addTimer delayMs (some { calls := [] })
    { m with wheel := added.1, tasks := Function.update m.tasks added.2 (some task) }
  | .cancelTimer timerId => { m with wheel := m.wheel.cancelTimer timerId }
  | .fireWrite frame =>
    if frame.opcode = .ping then { m with history := .pinged m.wheel.nextId :: m.history } else m
  | _ => m

/-- A part of the handler, on the loop's wheel. -/
def act (m : KeepAlive) (f : Session → Session × List WsEffect) : KeepAlive :=
  let r := f { ws := m.ws, nextTimerId := m.wheel.nextId }
  r.2.foldl perform { m with ws := r.1.ws }

/-- `Context::close` -/
def close (m : KeepAlive) : KeepAlive :=
  if m.closed || m.released then m
  else ({ m with closed := true, inactive := true } : KeepAlive).act channelInactive

def use (m : KeepAlive) : LoopUse → KeepAlive
  | .timer c => { m with wheel := (m.wheel.call c).1 }
  | .close => m.close

variable (handler : WebSocketHandler)

/-- The first message opens the WebSocket. -/
def greet (m : KeepAlive) (atOpen : List LoopUse) : KeepAlive :=
  if !m.ws.opened then
    ((atOpen.foldl use { m with ws := { m.ws with opened := true } }).act handler.schedulePing)
  else m

/-- `WebSocketHandler::channelRead` of a frame, behind the opening. -/
def onFrame (m : KeepAlive) (frame : WebSocketFrame) (atMessage : List LoopUse) : KeepAlive :=
  let m := if frame.opcode = .pong then (m.act cancelTimers).act handler.schedulePing else m
  if frame.opcode = .ping then (m.perform (.fireWrite (pongOf frame))).act handler.schedulePing
  else if frame.opcode = .text ∨ frame.opcode = .binary then
    (atMessage.foldl use m).act handler.schedulePing
  else if frame.opcode = .close then atMessage.foldl use (m.act cancelTimers)
  else m

/-- The handler is done with a frame. -/
def done (m : KeepAlive) (opcode : WebSocketOpcode) : KeepAlive :=
  { m with
    closeHandled := decide (opcode = .close)
    history := .handled opcode :: m.history }

/-- `WebSocketHandler::channelRead`, with what the application does in `onOpen`, and in the
callback of the message or in the handlers behind. -/
def channelRead (m : KeepAlive) (msg : Msg) (atOpen atMessage : List LoopUse) : KeepAlive :=
  let m := m.greet handler atOpen
  match msg with
  | .frame frame => (m.onFrame handler frame atMessage).done frame.opcode
  | _ => atMessage.foldl use m

/-- The callback of one of the handler's timers. -/
def runTask (m : KeepAlive) (timerId : ℕ) : TimerTask → KeepAlive
  | .ping => if m.released then m else m.act handler.pingTimer
  | .pongTimeout =>
    if m.released then m
    else ({ m with history := .timedOut timerId :: m.history } : KeepAlive).close

/-- One turn of the loop over `toFire`. -/
def runEntry (m : KeepAlive) (entry : TimerEntry) : KeepAlive :=
  match m.tasks entry.id with
  | some task => m.runTask handler entry.id task
  | none =>
    match entry.callback with
    | none => m
    | some callback =>
      { m with
        wheel := (m.wheel.callAll callback.calls).1
        firing := if callback.throws then none else m.firing }

inductive Op where
  | read (msg : Msg) (atOpen atMessage : List LoopUse)
  | use (u : LoopUse)
  /-- A failed write only marks the connection. -/
  | writeFails
  /-- The connection is removed, with its pipeline. -/
  | release
  | beginTick
  | runNext
  | endTick

/-- The loop reads between its ticks. -/
def step (m : KeepAlive) : Op → KeepAlive
  | .read msg atOpen atMessage =>
    if m.firing.isSome || m.released then m else m.channelRead handler msg atOpen atMessage
  | .use u => m.use u
  | .writeFails => { m with closed := true }
  | .release => { m with released := true }
  | .beginTick =>
    match m.firing with
    | some _ => m
    | none => { m with firing := some m.wheel.toFire, wheel := m.wheel.swapped }
  | .runNext =>
    match m.firing with
    | some (entry :: toFire) =>
      ({ m with firing := some toFire } : KeepAlive).runEntry handler entry
    | _ => m
  | .endTick =>
    match m.firing with
    | some [] => { m with firing := none, wheel := m.wheel.advance }
    | _ => m

def run (m : KeepAlive) (ops : List Op) : KeepAlive := ops.foldl (step handler) m

/-- A connection is set up on a loop that may have been running for any time. -/
def new (wheel : TimerWheel) : KeepAlive where
  wheel

/-! ### The handler's timers -/

variable {handler : WebSocketHandler} {m m' m'' : KeepAlive}

/-- The handler's timers that are in the wheel and not cancelled. -/
def live (m : KeepAlive) : List ℕ := m.wheel.uncanceled.filter fun id => (m.tasks id).isSome

/-- Those that the tick under way is to run. -/
def taken (m : KeepAlive) : List ℕ :=
  ((m.firing.getD []).map TimerEntry.id).filter fun id => (m.tasks id).isSome

def pending (m : KeepAlive) : List ℕ := m.taken ++ m.live

structure Sane (m : KeepAlive) : Prop where
  valid : m.wheel.Valid
  issued : ∀ id, (m.tasks id).isSome → id < m.wheel.nextId
  due_issued : ∀ e ∈ m.firing.getD [], e.id < m.wheel.nextId

theorem new_sane {wheel : TimerWheel} (hw : wheel.Valid) : (new wheel).Sane where
  valid := hw
  issued := by simp [new]
  due_issued := by simp [new]

theorem Sane.of_eq (hm : m.Sane) (hwheel : m'.wheel = m.wheel) (htasks : m'.tasks = m.tasks)
    (hfiring : m'.firing = m.firing) : m'.Sane where
  valid := hwheel ▸ hm.valid
  issued := by
    rw [hwheel, htasks]
    exact hm.issued
  due_issued := by
    rw [hwheel, hfiring]
    exact hm.due_issued

theorem Sane.lt_of_mem_pending (hm : m.Sane) {id : ℕ} (h : id ∈ m.pending) :
    id < m.wheel.nextId := by
  rcases List.mem_append.mp h with htaken | hlive
  · exact hm.issued id (List.mem_filter.mp htaken).2
  · exact hm.issued id (List.mem_filter.mp hlive).2

theorem Sane.perform (hm : m.Sane) (e : WsEffect) : (m.perform e).Sane := by
  cases e with
  | runAfter delayMs task timerId =>
    refine ⟨hm.valid.addTimer _ _, fun id hid => ?_, fun e he => ?_⟩
    · by_cases hnew : id = m.wheel.nextId
      · exact hnew ▸ Nat.lt_succ_self _
      · have hown : (m.tasks id).isSome := by
          simpa [KeepAlive.perform, TimerWheel.addTimer, hnew] using hid
        exact Nat.lt_succ_of_lt (hm.issued id hown)
    · exact Nat.lt_succ_of_lt (hm.due_issued e he)
  | cancelTimer timerId => exact ⟨hm.valid.cancelTimer timerId, hm.issued, hm.due_issued⟩
  | fireWrite frame =>
    rw [KeepAlive.perform]
    split
    · exact hm.of_eq rfl rfl rfl
    · exact hm
  | _ => exact hm

theorem Sane.act (hm : m.Sane) (f : Session → Session × List WsEffect) : (m.act f).Sane := by
  refine Ledger.foldl_preserves Sane (fun _ e h => h.perform e) ?_ _
  exact hm.of_eq rfl rfl rfl

theorem Sane.close (hm : m.Sane) : m.close.Sane := by
  unfold KeepAlive.close
  split
  · exact hm
  · refine Sane.act ?_ _
    exact hm.of_eq rfl rfl rfl

theorem nextId_le_call (w : TimerWheel) (c : Call) : w.nextId ≤ (w.call c).1.nextId := by
  cases c with
  | addTimer delayMs callback => exact Nat.le_succ _
  | cancelTimer timerId => exact le_rfl

theorem Sane.timer (hm : m.Sane) (c : Call) : (m.use (.timer c)).Sane where
  valid := hm.valid.call c
  issued id hid := (hm.issued id hid).trans_le (nextId_le_call m.wheel c)
  due_issued e he := (hm.due_issued e he).trans_le (nextId_le_call m.wheel c)

theorem Sane.use (hm : m.Sane) (u : LoopUse) : (m.use u).Sane := by
  cases u with
  | timer c => exact hm.timer c
  | close => exact hm.close

theorem Sane.useAll (hm : m.Sane) (us : List LoopUse) : (us.foldl KeepAlive.use m).Sane :=
  Ledger.foldl_preserves Sane (fun _ u h => h.use u) hm us

theorem Sane.greet (hm : m.Sane) (atOpen : List LoopUse) : (m.greet handler atOpen).Sane := by
  unfold KeepAlive.greet
  split
  · refine (Sane.useAll ?_ atOpen).act _
    exact hm.of_eq rfl rfl rfl
  · exact hm

theorem Sane.onFrame (hm : m.Sane) (frame : WebSocketFrame) (atMessage : List LoopUse) :
    (m.onFrame handler frame atMessage).Sane := by
  have hponged : (if frame.opcode = .pong then (m.act cancelTimers).act handler.schedulePing
      else m).Sane := by
    split
    · exact (hm.act _).act _
    · exact hm
  unfold KeepAlive.onFrame
  simp only
  split
  · exact (hponged.perform _).act _
  · split
    · exact (hponged.useAll atMessage).act _
    · split
      · exact (hponged.act _).useAll atMessage
      · exact hponged

theorem Sane.channelRead (hm : m.Sane) (msg : Msg) (atOpen atMessage : List LoopUse) :
    (m.channelRead handler msg atOpen atMessage).Sane := by
  have hgreet : (m.greet handler atOpen).Sane := hm.greet atOpen
  unfold KeepAlive.channelRead
  cases msg with
  | frame frame =>
    exact (hgreet.onFrame frame atMessage).of_eq rfl rfl rfl
  | _ => exact hgreet.useAll atMessage
end KeepAlive

end XNetty
