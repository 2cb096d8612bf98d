import XNetty.WebSocket.KeepAliveParts
import XNetty.WebSocket.KeepAliveSteps

/-!
# Pong timeouts

A pong timer that is still in the wheel is the one the handler knows, and every frame that shows
the peer alive cancels it. One that a tick has taken out can no longer be cancelled, but the loop
does not read before the tick is over.

## Main definitions

* `SilentSince` — since the ping of a timer, no frame has shown the peer alive.
* `KeepAlive.Watchful` — the pong timers that may still run are those of silent peers.
* `KeepAlive.pongTimeout_silent` — only a silent peer is timed out.
-/

namespace XNetty

open Event WebSocketHandler

/-- The frames that the handler takes as a sign of life. -/
def WebSocketOpcode.ShowsLife (opcode : WebSocketOpcode) : Prop :=
  opcode = .pong ∨ opcode = .ping ∨ opcode = .text ∨ opcode = .binary

instance (opcode : WebSocketOpcode) : Decidable opcode.ShowsLife :=
  inferInstanceAs (Decidable (_ ∨ _))

/-- The ping that timer `timerId` waits for was written, and no sign of life was handled since. -/
def SilentSince (timerId : ℕ) (history : List KeepAliveEvent) : Prop :=
  .pinged timerId ∈ history ∧
    ∀ opcode, .handled opcode ∈ history.takeWhile (fun e => e ≠ .pinged timerId) →
      ¬ opcode.ShowsLife

/-- Whenever a pong timer closed the connection, the peer had been silent since its ping. -/
def TimeoutsSilent (history : List KeepAliveEvent) : Prop :=
  ∀ later timerId earlier, history = later ++ .timedOut timerId :: earlier →
    SilentSince timerId earlier

section History

variable {timerId : ℕ} {history : List KeepAliveEvent}

theorem silentSince_pinged (timerId : ℕ) (history : List KeepAliveEvent) :
    SilentSince timerId (.pinged timerId :: history) := by
  refine ⟨List.mem_cons_self, fun opcode hmem => ?_⟩
  simp at hmem

theorem SilentSince.cons (h : SilentSince timerId history) {e : KeepAliveEvent}
    (he : ∀ opcode, e = .handled opcode → ¬ opcode.ShowsLife) :
    SilentSince timerId (e :: history) := by
  refine ⟨List.mem_cons_of_mem _ h.1, fun opcode hmem => ?_⟩
  by_cases hping : e = .pinged timerId
  · simp [hping] at hmem
  · rw [List.takeWhile_cons_of_pos (by simpa using hping)] at hmem
    rcases List.mem_cons.mp hmem with heq | hmem
    · exact he opcode heq.symm
    · exact h.2 opcode hmem

theorem timeoutsSilent_nil : TimeoutsSilent [] := by
  intro later timerId earlier hsplit
  simp at hsplit

theorem TimeoutsSilent.cons (h : TimeoutsSilent history) {e : KeepAliveEvent}
    (he : ∀ timerId, e = .timedOut timerId → SilentSince timerId history) :
    TimeoutsSilent (e :: history) := by
  intro later timerId earlier hsplit
  cases later with
  | nil =>
    obtain ⟨rfl, rfl⟩ := List.cons.inj hsplit
    exact he timerId rfl
  | cons e' later =>
    obtain ⟨rfl, rfl⟩ := List.cons.inj hsplit
    exact h later timerId earlier rfl

end History

namespace KeepAlive

variable {handler : WebSocketHandler} {m m' : KeepAlive}

/-- No pong timer is in the wheel. -/
def NoPong (m : KeepAlive) : Prop := ∀ id ∈ m.live, m.tasks id ≠ some .pongTimeout

structure Watchful (m : KeepAlive) : Prop where
  /-- The handler knows its pong timer in the wheel, and by an id other than `0`. -/
  known : ∀ id ∈ m.live, m.tasks id = some .pongTimeout →
    id = m.ws.pongTimerId ∧ m.ws.waitingPong = true
  nonzero : m.tasks 0 ≠ some .pongTimeout
  silent : ∀ id ∈ m.pending, m.tasks id = some .pongTimeout → SilentSince id m.history
  just : TimeoutsSilent m.history

theorem new_watchful (wheel : TimerWheel) : (new wheel).Watchful where
  known := by simp [new, live]
  nonzero := by simp [new]
  silent := by simp [new, pending, taken, live]
  just := timeoutsSilent_nil

/-! ### What the handler does not do -/

theorem Watchful.of_shrinks (h : m.Watchful) (hs : Shrinks m m') : m'.Watchful where
  known id hid htask := by
    rw [hs.tasks] at htask
    rw [hs.ws]
    exact h.known id (hs.live.subset hid) htask
  nonzero := hs.tasks ▸ h.nonzero
  silent id hid htask := by
    rw [hs.tasks] at htask
    rw [hs.history]
    exact h.silent id (hs.pending.subset hid) htask
  just := hs.history ▸ h.just

/-- An event that is no sign of life, and no unjust timeout. -/
theorem Watchful.log (h : m.Watchful) {e : KeepAliveEvent}
    (hlife : ∀ opcode, e = .handled opcode → ¬ opcode.ShowsLife)
    (hout : ∀ timerId, e = .timedOut timerId → SilentSince timerId m.history) :
    Watchful { m with history := e :: m.history } where
  known := h.known
  nonzero := h.nonzero
  silent id hid htask := (h.silent id hid htask).cons hlife
  just := h.just.cons hout

/-! ### The parts of the handler -/

theorem Watchful.noPong (h : m.Watchful) (hwaiting : m.ws.waitingPong = false) : m.NoPong := by
  intro id hid htask
  simp [(h.known id hid htask).2] at hwaiting

theorem NoPong.watchful (h : m.NoPong) (hnonzero : m.tasks 0 ≠ some .pongTimeout)
    (htaken : ∀ id ∈ m.taken, m.tasks id = some .pongTimeout → SilentSince id m.history)
    (hjust : TimeoutsSilent m.history) : m.Watchful where
  known id hid htask := absurd htask (h id hid)
  nonzero := hnonzero
  silent id hid htask := by
    rcases List.mem_append.mp hid with hid | hid
    · exact htaken id hid htask
    · exact absurd htask (h id hid)
  just := hjust

theorem Watchful.taken_silent (h : m.Watchful) :
    ∀ id ∈ m.taken, m.tasks id = some .pongTimeout → SilentSince id m.history :=
  fun id hid => h.silent id (List.mem_append_left _ hid)

theorem Watchful.noPong_cancelTimers (hm : m.Sane) (h : m.Watchful) :
    (m.act cancelTimers).NoPong := by
  intro id hid htask
  obtain ⟨hlive, -, hpong⟩ := (mem_live_cancelTimers hm).mp hid
  rw [act_cancelTimers] at htask
  obtain ⟨rfl, -⟩ := h.known id hlive htask
  rcases hpong with hzero | hne
  · exact h.nonzero (hzero ▸ htask)
  · exact hne rfl

theorem Watchful.cancelTimers (hm : m.Sane) (h : m.Watchful) :
    (m.act cancelTimers).Watchful := by
  refine (h.noPong_cancelTimers hm).watchful ?_ ?_ ?_
  all_goals rw [act_cancelTimers]
  · exact h.nonzero
  · exact h.taken_silent
  · exact h.just

/-- A new ping timer is not a pong timer. -/
theorem NoPong.runAfter_ping (hm : m.Sane) (h : m.NoPong) (delayMs timerId : ℕ) :
    (m.perform (.runAfter delayMs .ping timerId)).NoPong := by
  intro id hid
  rcases List.mem_cons.mp ((live_runAfter hm delayMs .ping timerId).mem_iff.mp hid) with rfl | hold
  · simp [perform, TimerWheel.addTimer]
  · have hne : id ≠ m.wheel.nextId := (hm.lt_of_mem_pending (List.mem_append_right _ hold)).ne
    simpa [perform, TimerWheel.addTimer, hne] using h id hold

theorem tasks_runAfter (m : KeepAlive) (delayMs timerId : ℕ) (task : TimerTask) {id : ℕ}
    (hne : id ≠ m.wheel.nextId) :
    (m.perform (.runAfter delayMs task timerId)).tasks id = m.tasks id :=
  Function.update_of_ne hne _ _

variable (handler) in
theorem Watchful.schedulePing (hm : m.Sane) (h : m.Watchful) :
    (m.act handler.schedulePing).Watchful ∧ (m.act handler.schedulePing).NoPong := by
  rw [act_schedulePing]
  split
  · exact ⟨h.cancelTimers hm, h.noPong_cancelTimers hm⟩
  · have hsane := hm.rearmed
    have hnone : m.rearmed.NoPong := by
      have hcancelled := h.noPong_cancelTimers hm
      simp only [NoPong, rearmed_live, rearmed_tasks]
      simpa [NoPong, act_cancelTimers] using hcancelled
    have hadded := hnone.runAfter_ping hsane handler.pingIntervalMs m.wheel.nextId
    refine ⟨hadded.watchful ?_ ?_ ?_, hadded⟩
    · by_cases hzero : 0 = m.rearmed.wheel.nextId
      · rw [rearmed_nextId] at hzero
        simp [perform, TimerWheel.addTimer, ← hzero]
      · rw [tasks_runAfter _ _ _ _ hzero, rearmed_tasks]
        exact h.nonzero
    · intro id hid htask
      rw [taken_runAfter hsane] at hid
      have hne := (hsane.lt_of_mem_pending (List.mem_append_left _ hid)).ne
      rw [tasks_runAfter _ _ _ _ hne, rearmed_tasks] at htask
      show SilentSince id m.rearmed.history
      rw [rearmed_history]
      exact h.taken_silent id (rearmed_taken m ▸ hid) htask
    · show TimeoutsSilent m.rearmed.history
      rw [rearmed_history]
      exact h.just

/-- The ping is written, and its pong timer is the only one in the wheel. -/
theorem Watchful.pingTimer (hm : m.Sane) (h : m.Watchful) (hpos : 0 < m.wheel.nextId) :
    (m.act handler.pingTimer).Watchful := by
  rw [act_pingTimer]
  split
  · exact h
  · next hwaiting =>
    have hnone : m.NoPong := h.noPong (Bool.eq_false_iff.mpr hwaiting)
    have hlogged : Watchful { m with history := .pinged m.wheel.nextId :: m.history } :=
      h.log (by simp) (by simp)
    constructor
    · intro id hid htask
      rcases List.mem_cons.mp ((live_runAfter hm.pinging _ _ _).mem_iff.mp hid) with rfl | hid
      · exact ⟨rfl, rfl⟩
      · have hne := (hm.pinging.lt_of_mem_pending (List.mem_append_right _ hid)).ne
        rw [tasks_runAfter _ _ _ _ hne] at htask
        exact absurd htask (hnone id hid)
    · rw [tasks_runAfter _ _ _ _ (show 0 ≠ m.pinging.wheel.nextId from hpos.ne)]
      exact h.nonzero
    · intro id hid htask
      show SilentSince id m.pinging.history
      by_cases hne : id = m.pinging.wheel.nextId
      · rw [hne]
        exact silentSince_pinged _ _
      · rw [tasks_runAfter _ _ _ _ hne] at htask
        refine hlogged.silent id ?_ htask
        rcases List.mem_append.mp hid with hid | hid
        · rw [taken_runAfter hm.pinging] at hid
          exact List.mem_append_left _ hid
        · have hid := (live_runAfter hm.pinging _ _ _).mem_iff.mp hid
          exact List.mem_append_right _ ((List.mem_cons.mp hid).resolve_left hne)
    · exact hlogged.just

theorem Watchful.close (hm : m.Sane) (h : m.Watchful) : m.close.Watchful := by
  unfold KeepAlive.close
  split
  · exact h
  · rw [act_channelInactive]
    have hclosed : Sane { m with closed := true, inactive := true } := hm.of_eq rfl rfl rfl
    refine Watchful.cancelTimers hclosed ?_
    exact ⟨h.known, h.nonzero, h.silent, h.just⟩

theorem Watchful.useAll (hm : m.Sane) (h : m.Watchful) (us : List LoopUse) :
    (us.foldl use m).Watchful := by
  induction us generalizing m with
  | nil => exact h
  | cons u us ih =>
    refine ih (hm.use u) ?_
    cases u with
    | timer c => exact h.of_shrinks (shrinks_timer hm c)
    | close => exact h.close hm

theorem Watchful.greet (hm : m.Sane) (h : m.Watchful) (atOpen : List LoopUse) :
    (m.greet handler atOpen).Watchful := by
  unfold KeepAlive.greet
  split
  · generalize hn : ({ m with ws := { m.ws with opened := true } } : KeepAlive) = n
    have hsane : n.Sane := hn ▸ hm.of_eq rfl rfl rfl
    have hwatch : n.Watchful := hn ▸ ⟨h.known, h.nonzero, h.silent, h.just⟩
    exact ((hwatch.useAll hsane atOpen).schedulePing handler (hsane.useAll atOpen)).1
  · exact h

/-! ### Messages -/

variable (handler) in
/-- **A sign of life** leaves no pong timer in the wheel. -/
theorem Watchful.onFrame (hm : m.Sane) (h : m.Watchful) (frame : WebSocketFrame)
    (atMessage : List LoopUse) :
    (m.onFrame handler frame atMessage).Watchful ∧
      (frame.opcode.ShowsLife → (m.onFrame handler frame atMessage).NoPong) := by
  by_cases hpong : frame.opcode = .pong
  · have hponged := (h.cancelTimers hm).schedulePing handler (hm.act _)
    simp [KeepAlive.onFrame, hpong, WebSocketOpcode.pong, WebSocketOpcode.ping,
      WebSocketOpcode.text, WebSocketOpcode.binary, WebSocketOpcode.close, hponged]
  unfold KeepAlive.onFrame
  simp only [hpong, if_false]
  split
  · rw [perform_pongOf]
    exact ⟨(h.schedulePing handler hm).1, fun _ => (h.schedulePing handler hm).2⟩
  · next hping =>
    split
    · have hscheduled := (h.useAll hm atMessage).schedulePing handler (hm.useAll atMessage)
      exact ⟨hscheduled.1, fun _ => hscheduled.2⟩
    · next hdata =>
      have hlife : ¬ frame.opcode.ShowsLife := by
        simp only [WebSocketOpcode.ShowsLife]
        tauto
      split
      · exact ⟨(h.cancelTimers hm).useAll (hm.act _) atMessage, fun hshows => absurd hshows hlife⟩
      · exact ⟨h, fun hshows => absurd hshows hlife⟩

theorem Watchful.done (h : m.Watchful) {opcode : WebSocketOpcode}
    (hlife : opcode.ShowsLife → m.NoPong ∧ m.taken = []) : (m.done opcode).Watchful := by
  by_cases hshows : opcode.ShowsLife
  · obtain ⟨hnone, htaken⟩ := hlife hshows
    refine NoPong.watchful hnone h.nonzero ?_ (h.just.cons (by simp))
    intro id hid
    rw [show (m.done opcode).taken = m.taken from rfl, htaken] at hid
    simp at hid
  · have hlogged := h.log (e := .handled opcode) (by simpa using hshows) (by simp)
    exact ⟨hlogged.known, hlogged.nonzero, hlogged.silent, hlogged.just⟩

/-- The loop reads between its ticks, when no pong timer is about to run. -/
theorem Watchful.channelRead (hm : m.Sane) (h : m.Watchful) (hidle : m.firing = none) (msg : Msg)
    (atOpen atMessage : List LoopUse) :
    (m.channelRead handler msg atOpen atMessage).Watchful := by
  have hgreet : (m.greet handler atOpen).Watchful := h.greet hm atOpen
  have hsane : (m.greet handler atOpen).Sane := hm.greet atOpen
  unfold KeepAlive.channelRead
  cases msg with
  | frame frame =>
    obtain ⟨hwatch, hlife⟩ := hgreet.onFrame handler hsane frame atMessage
    refine hwatch.done fun hshows => ⟨hlife hshows, ?_⟩
    simp [taken, hidle]
  | _ => exact hgreet.useAll hsane atMessage

/-! ### Timers and runs -/

theorem Watchful.runTask (hm : m.Sane) (h : m.Watchful) (hpos : 0 < m.wheel.nextId) {timerId : ℕ}
    {task : TimerTask} (hdue : task = .pongTimeout → SilentSince timerId m.history) :
    (m.runTask handler timerId task).Watchful := by
  cases task with
  | ping =>
    rw [KeepAlive.runTask]
    split
    · exact h
    · exact h.pingTimer hm hpos
  | pongTimeout =>
    rw [KeepAlive.runTask]
    split
    · exact h
    · refine Watchful.close ?_ (h.log (by simp) ?_)
      · exact hm.of_eq rfl rfl rfl
      · intro timerId' heq
        obtain rfl : timerId = timerId' := by simpa using heq
        exact hdue rfl

theorem Watchful.step (hm : m.Sane) (h : m.Watchful) (op : Op) : (m.step handler op).Watchful := by
  rcases step_cases handler hm op with ⟨hs, -⟩ | ⟨msg, atOpen, atMessage, -, hidle, heq⟩ |
    ⟨-, heq⟩ | ⟨entry, toFire, task, -, hfiring, htask, heq⟩
  · exact h.of_shrinks hs
  · rw [heq]
    exact h.channelRead hm hidle msg atOpen atMessage
  · rw [heq]
    exact h.close hm
  · have hsub : ((some toFire).getD []).Sublist (m.firing.getD []) := by simp [hfiring]
    have hdue : entry.id < m.wheel.nextId := hm.due_issued entry (by simp [hfiring])
    have hpending : entry.id ∈ m.pending :=
      List.mem_append_left _ (List.mem_filter.mpr ⟨by simp [hfiring], by simp [htask]⟩)
    rw [heq]
    refine Watchful.runTask (hm.firing hsub) (h.of_shrinks (shrinks_firing hsub))
      (Nat.zero_lt_of_lt hdue) ?_
    rintro rfl
    exact h.silent entry.id hpending htask

theorem run_watchful (hm : m.Sane) (h : m.Watchful) (ops : List Op) :
    (m.run handler ops).Watchful :=
  (Ledger.foldl_preserves (fun n : KeepAlive => n.Sane ∧ n.Watchful)
    (fun _ op hn => ⟨hn.1.step op, hn.2.step hn.1 op⟩) ⟨hm, h⟩ ops).2

/-- **Only a silent peer is timed out**: in every run on the loop's wheel, whatever was done with
the wheel before, a pong timer closes the connection only if no PONG, PING, TEXT or BINARY frame
has been handled since its ping was written. -/
theorem pongTimeout_silent (handler : WebSocketHandler) {numSlots : ℕ} (hslots : 0 < numSlots)
    (tickMs : ℕ) (before : List TimerWheel.Op) (ops : List Op) :
    TimeoutsSilent
      ((new ((TimerWheel.new numSlots tickMs).run before).1).run handler ops).history := by
  have hw : ((TimerWheel.new numSlots tickMs).run before).1.Valid :=
    (TimerWheel.new_valid hslots tickMs).run before
  exact (run_watchful (new_sane hw) (new_watchful _) ops).just

/-- A peer that sends one message and then nothing, on a wheel of four slots. -/
theorem pongTimeout_silent_oneMessage :
    let ops : List Op := [.read (.frame {}) [] [], .beginTick, .endTick, .beginTick, .runNext,
      .endTick, .beginTick, .runNext, .endTick]
    let history := ((new ((TimerWheel.new 4 1000).run [.call (.addTimer 9000 none)]).1).run
      { pingIntervalMs := 1000, pongTimeoutMs := 1000 } ops).history
    history = [.timedOut 3, .pinged 3, .handled .text] ∧ TimeoutsSilent history :=
  ⟨by decide +kernel, pongTimeout_silent _ (by decide) 1000 [.call (.addTimer 9000 none)] _⟩

end KeepAlive

end XNetty
