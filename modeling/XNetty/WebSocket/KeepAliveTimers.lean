import XNetty.WebSocket.KeepAliveParts
import XNetty.WebSocket.KeepAliveSteps

/-!
# The handler's timers

The handler replaces its timer on every frame, and takes an id of `0` for no timer. The wheel
numbers its timers from `0` on: a ping timer that is the first of its wheel is never cancelled.
Nor is a timer that is started when the connection has ended, by the rest of a message in whose
callback it was closed, or by a ping timer that its tick had already taken out.

## Main definitions

* `KeepAlive.Schedulable` — the handler can start a timer in place of the one it has.
* `KeepAlive.Tidy` — a step starts and cancels timers only where that is so.
* `KeepAlive.OneTimer` — what is claimed of the handler's timers in the wheel.
* `KeepAlive.Single` — the invariant.
-/

namespace XNetty

open Event WebSocketHandler

namespace KeepAlive

/-- No timer that the handler takes for none. -/
def Cancellable (m : KeepAlive) : Prop := 0 ∉ m.live

def Schedulable (m : KeepAlive) : Prop := m.Cancellable ∧ m.inactive = false

/-- Closing the connection cancels its timer. -/
def ClosesTidily (m : KeepAlive) : LoopUse → Prop
  | .timer _ => True
  | .close => m.closed = false → m.released = false → m.Cancellable

/-- The handler cancels or replaces its timer as the frame asks, behind the opening. -/
def FrameTidy (m : KeepAlive) (frame : WebSocketFrame) (atMessage : List LoopUse) : Prop :=
  (frame.opcode = .pong ∨ frame.opcode = .ping → m.Schedulable) ∧
  (frame.opcode = .text ∨ frame.opcode = .binary → (atMessage.foldl use m).Schedulable) ∧
  (frame.opcode = .close → m.Cancellable)

variable (handler : WebSocketHandler)

def ReadTidy (m : KeepAlive) (msg : Msg) (atOpen atMessage : List LoopUse) : Prop :=
  (m.ws.opened = false →
    (atOpen.foldl use { m with ws := { m.ws with opened := true } }).Schedulable) ∧
  match msg with
  | .frame frame => (m.greet handler atOpen).FrameTidy frame atMessage
  | _ => Ledger.Along use ClosesTidily (m.greet handler atOpen) atMessage

/-- No ping timer runs behind the end of the connection. -/
def DueTidy (m : KeepAlive) : Option (List TimerEntry) → Prop
  | some (entry :: _) =>
    m.tasks entry.id = some .ping → m.released = false → m.inactive = false
  | _ => True

/-- The step does not lose a timer of id `0`, nor start one behind the end of the connection. -/
def Tidy (m : KeepAlive) : Op → Prop
  | .read msg atOpen atMessage =>
    m.firing = none → m.released = false → m.ReadTidy handler msg atOpen atMessage
  | .use u => m.ClosesTidily u
  | .runNext => m.DueTidy m.firing
  | _ => True

section Decidable

variable (m : KeepAlive)

instance : Decidable m.Cancellable := inferInstanceAs (Decidable (0 ∉ m.live))

instance : Decidable m.Schedulable := inferInstanceAs (Decidable (_ ∧ _))

instance : DecidablePred m.ClosesTidily
  | .timer _ => .isTrue trivial
  | .close => inferInstanceAs (Decidable (_ → _ → m.Cancellable))

instance (frame : WebSocketFrame) (atMessage : List LoopUse) :
    Decidable (m.FrameTidy frame atMessage) := inferInstanceAs (Decidable (_ ∧ _ ∧ _))

instance (msg : Msg) (atOpen atMessage : List LoopUse) :
    Decidable (m.ReadTidy handler msg atOpen atMessage) :=
  match msg with
  | .frame _ => inferInstanceAs (Decidable (_ ∧ FrameTidy _ _ _))
  | .buffer _ | .request _ | .response _ =>
    inferInstanceAs (Decidable (_ ∧ Ledger.Along use ClosesTidily _ _))

instance : DecidablePred m.DueTidy
  | some (_ :: _) => inferInstanceAs (Decidable (_ → _ → _))
  | some [] | none => .isTrue trivial

instance : DecidablePred (m.Tidy handler)
  | .read msg atOpen atMessage =>
    inferInstanceAs (Decidable (_ → _ → m.ReadTidy handler msg atOpen atMessage))
  | .use u => inferInstanceAs (Decidable (m.ClosesTidily u))
  | .runNext => inferInstanceAs (Decidable (m.DueTidy m.firing))
  | .writeFails | .release | .beginTick | .endTick => .isTrue trivial

end Decidable

/-- At most one timer is in the wheel, and none behind a CLOSE or the end of the connection. -/
def OneTimer (m : KeepAlive) : Prop :=
  m.live.length ≤ 1 ∧ (m.closeHandled = true ∨ m.inactive = true → m.live = [])

variable {handler} {m m' : KeepAlive}

structure Single (m : KeepAlive) : Prop where
  one : m.pending.length ≤ 1
  /-- The handler has its timer's id. -/
  known : ∀ id ∈ m.live, id = m.ws.pingTimerId ∨ id = m.ws.pongTimerId
  ended : m.inactive = true → m.live = []
  unopened : m.ws.opened = false → m.pending = []

theorem new_single (wheel : TimerWheel) : (new wheel).Single where
  one := by simp [new, pending, taken, live]
  known := by simp [new, live]
  ended := by simp [new, live]
  unopened := by simp [new, pending, taken, live]

theorem eq_nil_of_subperm {α : Type*} {l l' : List α} (h : l.Subperm l') (hnil : l' = []) :
    l = [] := by
  subst hnil
  exact List.subperm_nil.mp h

theorem Single.of_shrinks (h : m.Single) (hs : Shrinks m m') : m'.Single where
  one := hs.pending.length_le.trans h.one
  known id hid := by
    rw [hs.ws]
    exact h.known id (hs.live.subset hid)
  ended hinactive := eq_nil_of_subperm hs.live (h.ended (hs.inactive ▸ hinactive))
  unopened hopened := eq_nil_of_subperm hs.pending (h.unopened (hs.ws ▸ hopened))

/-! ### The parts of the handler -/

/-- **Cancelling** leaves no timer in the wheel but one of id `0`. -/
theorem live_cancelTimers (hm : m.Sane)
    (hknown : ∀ id ∈ m.live, id = m.ws.pingTimerId ∨ id = m.ws.pongTimerId)
    (hcan : m.Cancellable) : (m.act cancelTimers).live = [] := by
  refine List.eq_nil_iff_forall_not_mem.mpr fun id hid => ?_
  obtain ⟨hlive, hping, hpong⟩ := (mem_live_cancelTimers hm).mp hid
  have hne : id ≠ 0 := fun hzero => hcan (hzero ▸ hlive)
  rcases hknown id hlive with heq | heq
  · exact hping.elim (fun hzero => hne (heq.trans hzero)) fun hid => hid heq
  · exact hpong.elim (fun hzero => hne (heq.trans hzero)) fun hid => hid heq

theorem taken_cancelTimers (m : KeepAlive) : (m.act cancelTimers).taken = m.taken := by
  rw [act_cancelTimers]
  rfl

theorem pending_cancelTimers_subperm (hm : m.Sane) :
    (m.act cancelTimers).pending.Subperm m.pending := by
  rw [pending, taken_cancelTimers]
  exact (List.subperm_append_left m.taken).mpr (live_cancelTimers_subperm hm)

theorem Single.cancelTimers (hm : m.Sane) (h : m.Single) (hcan : m.Cancellable) :
    (m.act cancelTimers).Single where
  one := (pending_cancelTimers_subperm hm).length_le.trans h.one
  known id hid := by simp [live_cancelTimers hm h.known hcan] at hid
  ended _ := live_cancelTimers hm h.known hcan
  unopened hopened := by
    refine eq_nil_of_subperm (pending_cancelTimers_subperm hm) (h.unopened ?_)
    simpa [act_cancelTimers, idle] using hopened

/-- A timer that the handler starts when it has none, and keeps the id of. -/
theorem Single.runAfter (hm : m.Sane) (hnone : m.pending = []) (hactive : m.inactive = false)
    (hopened : m.ws.opened = true) (delayMs : ℕ) (task : TimerTask) (timerId : ℕ)
    (hknown : m.wheel.nextId = m.ws.pingTimerId ∨ m.wheel.nextId = m.ws.pongTimerId) :
    (m.perform (.runAfter delayMs task timerId)).Single := by
  obtain ⟨htaken, hlive⟩ := List.append_eq_nil_iff.mp hnone
  have hperm : (m.perform (.runAfter delayMs task timerId)).live = [m.wheel.nextId] := by
    have hadded := live_runAfter hm delayMs task timerId
    rw [hlive] at hadded
    exact hadded.eq_singleton
  refine ⟨?_, fun id hid => ?_, fun hinactive => ?_, fun hclosed => ?_⟩
  · rw [pending, taken_runAfter hm, htaken, hperm]
    exact le_rfl
  · rw [hperm] at hid
    rw [List.mem_singleton.mp hid]
    exact hknown
  · rw [show (m.perform (.runAfter delayMs task timerId)).inactive = m.inactive from rfl,
      hactive] at hinactive
    simp at hinactive
  · rw [show (m.perform (.runAfter delayMs task timerId)).ws = m.ws from rfl, hopened] at hclosed
    simp at hclosed

variable (handler) in
theorem Single.schedulePing (hm : m.Sane) (h : m.Single) (hsched : m.Schedulable)
    (hopened : m.ws.opened = true) (hidle : m.firing = none) :
    (m.act handler.schedulePing).Single := by
  rw [act_schedulePing]
  split
  · exact h.cancelTimers hm hsched.1
  · have hnone : m.rearmed.pending = [] := by
      rw [pending, rearmed_taken, rearmed_live, live_cancelTimers hm h.known hsched.1]
      simp [taken, hidle]
    refine Single.runAfter hm.rearmed hnone ?_ ?_ _ _ _ (.inl ?_)
    · exact (rearmed_inactive m).trans hsched.2
    · exact hopened
    · exact rearmed_nextId m

/-! ### Uses of the loop -/

theorem close_cases (m : KeepAlive) :
    m.close = m ∨ m.closed = false ∧ m.released = false ∧
      m.close = ({ m with closed := true, inactive := true } : KeepAlive).act cancelTimers := by
  unfold close
  split
  · exact .inl rfl
  · next hopen =>
    simp only [Bool.or_eq_true, not_or, Bool.not_eq_true] at hopen
    exact .inr ⟨hopen.1, hopen.2, act_channelInactive _⟩

theorem use_subperm (hm : m.Sane) (u : LoopUse) :
    (m.use u).live.Subperm m.live ∧ (m.use u).pending.Subperm m.pending := by
  cases u with
  | timer c => exact ⟨(shrinks_timer hm c).live, (shrinks_timer hm c).pending⟩
  | close =>
    show m.close.live.Subperm m.live ∧ m.close.pending.Subperm m.pending
    rcases m.close_cases with heq | ⟨-, -, heq⟩
    · rw [heq]
      exact ⟨.refl _, .refl _⟩
    · have hended : Sane { m with closed := true, inactive := true } := hm.of_eq rfl rfl rfl
      rw [heq]
      exact ⟨live_cancelTimers_subperm hended, pending_cancelTimers_subperm hended⟩

theorem useAll_subperm (hm : m.Sane) (us : List LoopUse) :
    (us.foldl use m).live.Subperm m.live ∧ (us.foldl use m).pending.Subperm m.pending := by
  induction us generalizing m with
  | nil => exact ⟨.refl _, .refl _⟩
  | cons u us ih =>
    obtain ⟨hlive, hpending⟩ := use_subperm hm u
    exact ⟨(ih (hm.use u)).1.trans hlive, (ih (hm.use u)).2.trans hpending⟩

theorem Single.use (hm : m.Sane) (h : m.Single) {u : LoopUse} (htidy : m.ClosesTidily u) :
    (m.use u).Single := by
  cases u with
  | timer c => exact h.of_shrinks (shrinks_timer hm c)
  | close =>
    show m.close.Single
    rcases m.close_cases with heq | ⟨hclosed, hreleased, heq⟩
    · rwa [heq]
    · have hended : Sane { m with closed := true, inactive := true } := hm.of_eq rfl rfl rfl
      have hnone := live_cancelTimers hended h.known (htidy hclosed hreleased)
      rw [heq]
      refine ⟨(pending_cancelTimers_subperm hended).length_le.trans h.one, fun id hid => ?_,
        fun _ => hnone, fun hopened => ?_⟩
      · simp [hnone] at hid
      · refine eq_nil_of_subperm (pending_cancelTimers_subperm hended) (h.unopened ?_)
        simpa [act_cancelTimers, idle] using hopened

theorem Single.useAll (hm : m.Sane) (h : m.Single) {us : List LoopUse}
    (htidy : Ledger.Along KeepAlive.use ClosesTidily m us) : (us.foldl KeepAlive.use m).Single := by
  induction us generalizing m with
  | nil => exact h
  | cons u us ih => exact ih (hm.use u) (h.use hm htidy.1) htidy.2

/-- With no timer in the wheel, there is none to lose. -/
theorem closesTidily_of_live (hm : m.Sane) (hnone : m.live = []) (us : List LoopUse) :
    Ledger.Along use ClosesTidily m us := by
  induction us generalizing m with
  | nil => trivial
  | cons u us ih =>
    refine ⟨?_, ih (hm.use u) (eq_nil_of_subperm (use_subperm hm u).1 hnone)⟩
    cases u with
    | timer c => trivial
    | close => exact fun _ _ => by simp [Cancellable, hnone]

/-- What uses of the loop leave alone. -/
theorem useAll_frame (m : KeepAlive) (us : List LoopUse) :
    (us.foldl use m).ws.opened = m.ws.opened ∧ (us.foldl use m).closeHandled = m.closeHandled := by
  refine Ledger.foldl_preserves (fun n : KeepAlive =>
    n.ws.opened = m.ws.opened ∧ n.closeHandled = m.closeHandled) ?_ ⟨rfl, rfl⟩ us
  intro n u hn
  cases u with
  | timer c => exact hn
  | close =>
    show n.close.ws.opened = m.ws.opened ∧ n.close.closeHandled = m.closeHandled
    rcases n.close_cases with heq | ⟨-, -, heq⟩
    · rwa [heq]
    · rw [heq, act_cancelTimers]
      exact hn

/-- When the connection has not ended, closing it has done nothing. -/
theorem shrinks_useAll (hm : m.Sane) {us : List LoopUse}
    (hactive : (us.foldl use m).inactive = false) :
    m.inactive = false ∧ Shrinks m (us.foldl use m) := by
  induction us generalizing m with
  | nil => exact ⟨hactive, .refl m⟩
  | cons u us ih =>
    obtain ⟨hafter, hrest⟩ := ih (hm.use u) hactive
    cases u with
    | timer c => exact ⟨hafter, (shrinks_timer hm c).trans hrest⟩
    | close =>
      rcases m.close_cases with heq | ⟨-, -, heq⟩
      · have heq : m.use .close = m := heq
        rw [List.foldl_cons]
        rw [heq] at hafter hrest ⊢
        exact ⟨hafter, hrest⟩
      · have heq : m.use .close = _ := heq
        rw [heq, act_cancelTimers] at hafter
        simp at hafter

/-! ### Messages -/

/-- No timer behind a CLOSE. -/
def Stopped (m : KeepAlive) : Prop :=
  m.closeHandled = true → m.pending = [] ∧ m.ws.opened = true

variable (handler) in
theorem opened_schedulePing (m : KeepAlive) :
    (m.act handler.schedulePing).ws.opened = m.ws.opened := by
  rw [act_schedulePing]
  split
  · rw [act_cancelTimers]
    rfl
  · rfl

variable (handler) in
theorem closeHandled_greet (m : KeepAlive) (atOpen : List LoopUse) :
    (m.greet handler atOpen).closeHandled = m.closeHandled := by
  unfold greet
  split
  · rw [closeHandled_act]
    exact (useAll_frame _ _).2
  · rfl

variable (handler) in
theorem closeHandled_runTask (m : KeepAlive) (timerId : ℕ) (task : TimerTask) :
    (m.runTask handler timerId task).closeHandled = m.closeHandled := by
  cases task <;> rw [runTask] <;> split <;> simp

variable (handler) in
theorem Single.greet (hm : m.Sane) (h : m.Single) (hidle : m.firing = none) {atOpen : List LoopUse}
    (htidy : m.ws.opened = false →
      (atOpen.foldl KeepAlive.use { m with ws := { m.ws with opened := true } }).Schedulable) :
    (m.greet handler atOpen).Single ∧ (m.greet handler atOpen).ws.opened = true := by
  unfold KeepAlive.greet
  cases hopened : m.ws.opened with
  | true => simpa [hopened] using h
  | false =>
    have hsched := htidy hopened
    simp only [Bool.not_false, if_true]
    generalize hn : ({ m with ws := { m.ws with opened := true } } : KeepAlive) = n at *
    have hsane : n.Sane := hn ▸ hm.of_eq rfl rfl rfl
    have hsingle : n.Single := by
      subst hn
      exact ⟨h.one, h.known, h.ended, by simp⟩
    have hfiring : (atOpen.foldl KeepAlive.use n).firing = none := by
      rw [firing_useAll, ← hn]
      exact hidle
    have hopen : (atOpen.foldl KeepAlive.use n).ws.opened = true := by
      rw [(useAll_frame _ _).1, ← hn]
    have hused := hsingle.of_shrinks (shrinks_useAll hsane hsched.2).2
    exact ⟨hused.schedulePing handler (hsane.useAll atOpen) hsched hopen hfiring,
      (opened_schedulePing handler _).trans hopen⟩

theorem pending_of_idle (hidle : m.firing = none) : m.pending = m.live := by
  simp [pending, taken, hidle]

variable (handler) in
theorem Single.onFrame (hm : m.Sane) (h : m.Single) (hidle : m.firing = none)
    (hopened : m.ws.opened = true) {frame : WebSocketFrame} {atMessage : List LoopUse}
    (htidy : m.FrameTidy frame atMessage) :
    (m.onFrame handler frame atMessage).Single ∧
      (m.onFrame handler frame atMessage).ws.opened = true ∧
      (frame.opcode = .close → (m.onFrame handler frame atMessage).pending = []) := by
  obtain ⟨hcontrol, hdata, hclose⟩ := htidy
  by_cases hpong : frame.opcode = .pong
  · have hsched := hcontrol (.inl hpong)
    have hnone := live_cancelTimers hm h.known hsched.1
    have hcancelled : (m.act XNetty.WebSocketHandler.cancelTimers).Schedulable := by
      refine ⟨fun hmem => by simp [hnone] at hmem, ?_⟩
      rw [act_cancelTimers]
      exact hsched.2
    have hopen : (m.act XNetty.WebSocketHandler.cancelTimers).ws.opened = true := by
      rw [act_cancelTimers]
      exact hopened
    have hponged := (h.cancelTimers hm hsched.1).schedulePing handler (hm.act _)
      hcancelled hopen (by simpa using hidle)
    simp [KeepAlive.onFrame, hpong, WebSocketOpcode.pong, WebSocketOpcode.ping,
      WebSocketOpcode.text, WebSocketOpcode.binary, WebSocketOpcode.close, hponged,
      opened_schedulePing, hopen]
  unfold KeepAlive.onFrame
  simp only [hpong, if_false]
  split
  · next hping =>
    have hclosing : frame.opcode ≠ .close := by
      rw [hping]
      decide
    rw [perform_pongOf]
    exact ⟨h.schedulePing handler hm (hcontrol (.inr hping)) hopened hidle,
      (opened_schedulePing handler m).trans hopened, fun heq => absurd heq hclosing⟩
  · split
    · next hmsg =>
      have hclosing : frame.opcode ≠ .close := by
        rcases hmsg with heq | heq <;> rw [heq] <;> decide
      have hsched := hdata hmsg
      have hused := h.of_shrinks (shrinks_useAll hm hsched.2).2
      have hopen := (useAll_frame m atMessage).1.trans hopened
      refine ⟨hused.schedulePing handler (hm.useAll atMessage) hsched hopen ?_,
        (opened_schedulePing handler _).trans hopen, fun heq => absurd heq hclosing⟩
      rw [firing_useAll, hidle]
    · split
      · next hclosing =>
        have hnone := live_cancelTimers hm h.known (hclose hclosing)
        have hidle' : (m.act XNetty.WebSocketHandler.cancelTimers).firing = none := by
          simpa using hidle
        refine ⟨(h.cancelTimers hm (hclose hclosing)).useAll (hm.act _)
          (closesTidily_of_live (hm.act _) hnone atMessage), ?_, fun _ => ?_⟩
        · rw [(useAll_frame _ _).1, act_cancelTimers]
          exact hopened
        · refine eq_nil_of_subperm (useAll_subperm (hm.act _) atMessage).2 ?_
          rw [pending_of_idle hidle', hnone]
      · next hother => exact ⟨h, hopened, fun heq => absurd heq hother⟩

theorem Single.done (h : m.Single) (opcode : WebSocketOpcode) : (m.done opcode).Single :=
  ⟨h.one, h.known, h.ended, h.unopened⟩

theorem Single.channelRead (hm : m.Sane) (h : m.Single) (hstopped : m.Stopped)
    (hidle : m.firing = none) {msg : Msg} {atOpen atMessage : List LoopUse}
    (htidy : m.ReadTidy handler msg atOpen atMessage) :
    (m.channelRead handler msg atOpen atMessage).Single ∧
      (m.channelRead handler msg atOpen atMessage).Stopped := by
  obtain ⟨hopen, hmsg⟩ := htidy
  obtain ⟨hgreet, hopened⟩ := h.greet handler hm hidle hopen
  have hsane : (m.greet handler atOpen).Sane := hm.greet atOpen
  have hfiring : (m.greet handler atOpen).firing = none := (firing_greet m atOpen).trans hidle
  have hpassed : Ledger.Along KeepAlive.use ClosesTidily (m.greet handler atOpen) atMessage →
      (atMessage.foldl KeepAlive.use (m.greet handler atOpen)).Single ∧
        (atMessage.foldl KeepAlive.use (m.greet handler atOpen)).Stopped := by
    intro htidy
    refine ⟨hgreet.useAll hsane htidy, fun hclosed => ?_⟩
    rw [(useAll_frame _ _).1]
    rw [(useAll_frame _ _).2, closeHandled_greet] at hclosed
    obtain ⟨hpending, hopen⟩ := hstopped hclosed
    have hgreeted : m.greet handler atOpen = m := by simp [KeepAlive.greet, hopen]
    refine ⟨eq_nil_of_subperm (useAll_subperm hsane atMessage).2 ?_, hopened⟩
    rw [hgreeted, hpending]
  unfold KeepAlive.channelRead
  cases msg with
  | frame frame =>
    obtain ⟨hframe, hopened, hclose⟩ := hgreet.onFrame handler hsane hfiring hopened hmsg
    refine ⟨hframe.done _, fun hclosed => ⟨?_, hopened⟩⟩
    exact hclose (by simpa [KeepAlive.done] using hclosed)
  | buffer buf => exact hpassed hmsg
  | request req => exact hpassed hmsg
  | response resp => exact hpassed hmsg

/-! ### Timers and runs -/

/-- The timer that runs was the only one. -/
theorem Single.runTask (hm : m.Sane) {entry : TimerEntry} {toFire : List TimerEntry}
    {task : TimerTask} (h : m.Single) (hfiring : m.firing = some (entry :: toFire))
    (htask : m.tasks entry.id = some task)
    (htidy : task = .ping → m.released = false → m.inactive = false) :
    (({ m with firing := some toFire } : KeepAlive).runTask handler entry.id task).Single := by
  have hsub : ((some toFire).getD []).Sublist (m.firing.getD []) := by simp [hfiring]
  generalize hn : ({ m with firing := some toFire } : KeepAlive) = n
  have hsane : n.Sane := hn ▸ hm.firing hsub
  have hsingle : n.Single := hn ▸ h.of_shrinks (shrinks_firing hsub)
  have hpending : m.pending = entry.id :: n.pending := by
    subst hn
    simp [pending, taken, live, hfiring, htask]
  have hnone : n.pending = [] := by
    have hone := h.one
    rw [hpending, List.length_cons] at hone
    exact List.eq_nil_of_length_eq_zero (by omega)
  have hopened : n.ws.opened = true := by
    by_contra hclosed
    have hempty := h.unopened (by subst hn; simpa using hclosed)
    rw [hpending] at hempty
    simp at hempty
  have hlive := (List.append_eq_nil_iff.mp hnone).2
  cases task with
  | ping =>
    rw [KeepAlive.runTask]
    split
    · exact hsingle
    · next hreleased =>
      rw [act_pingTimer]
      split
      · exact hsingle
      · have hactive : n.inactive = false := by
          subst hn
          exact htidy rfl (by simpa using hreleased)
        exact Single.runAfter hsane.pinging hnone hactive hopened _ _ _ (.inr rfl)
  | pongTimeout =>
    rw [KeepAlive.runTask]
    split
    · exact hsingle
    · have hcan : n.Cancellable := by simp [Cancellable, hlive]
      refine Single.use (u := .close) ?_ ?_ fun _ _ => hcan
      · exact hsane.of_eq rfl rfl rfl
      · exact ⟨hsingle.one, hsingle.known, hsingle.ended, hsingle.unopened⟩

theorem Stopped.of_subperm (h : m.Stopped) (hclose : m'.closeHandled = m.closeHandled)
    (hopened : m'.ws.opened = m.ws.opened) (hpending : m'.pending.Subperm m.pending) :
    m'.Stopped := by
  intro hclosed
  obtain ⟨hnone, hopen⟩ := h (hclose ▸ hclosed)
  exact ⟨eq_nil_of_subperm hpending hnone, hopened.trans hopen⟩

theorem Single.step (hm : m.Sane) (h : m.Single) (hstopped : m.Stopped) {op : Op}
    (htidy : m.Tidy handler op) : (m.step handler op).Single ∧ (m.step handler op).Stopped := by
  rcases step_cases handler hm op with ⟨hs, -⟩ | ⟨msg, atOpen, atMessage, rfl, hidle, heq⟩ |
    ⟨rfl, heq⟩ | ⟨entry, toFire, task, rfl, hfiring, htask, heq⟩
  · exact ⟨h.of_shrinks hs, hstopped.of_subperm hs.closeHandled (by rw [hs.ws]) hs.pending⟩
  · by_cases hreleased : m.released
    · simpa [KeepAlive.step, hreleased] using ⟨h, hstopped⟩
    · rw [heq]
      exact h.channelRead hm hstopped hidle (htidy hidle (by simpa using hreleased))
  · obtain ⟨hopened, hclose⟩ := useAll_frame m [.close]
    have hpending := (use_subperm hm .close).2
    exact ⟨Single.use (u := .close) hm h htidy, hstopped.of_subperm hclose hopened hpending⟩
  · rw [heq]
    refine ⟨h.runTask hm hfiring htask ?_, fun hclosed => ?_⟩
    · rintro rfl hreleased
      have hdue : m.DueTidy m.firing := htidy
      rw [hfiring] at hdue
      exact hdue htask hreleased
    · rw [closeHandled_runTask] at hclosed
      have hmem : entry.id ∈ m.pending :=
        List.mem_append_left _ (List.mem_filter.mpr ⟨by simp [hfiring], by simp [htask]⟩)
      rw [(hstopped hclosed).1] at hmem
      simp at hmem

theorem Single.oneTimer (h : m.Single) (hstopped : m.Stopped) : m.OneTimer := by
  constructor
  · have hlength := h.one
    rw [pending, List.length_append] at hlength
    omega
  · rintro (hclosed | hinactive)
    · exact (List.append_eq_nil_iff.mp (hstopped hclosed).1).2
    · exact h.ended hinactive

/-- **Keep-alive timers do not accumulate** in the runs that lose none of id `0` and start none
behind the end of the connection, whatever was done with the wheel before. -/
theorem run_oneTimer (handler : WebSocketHandler) {numSlots : ℕ} (hslots : 0 < numSlots)
    (tickMs : ℕ) (before : List TimerWheel.Op) (ops : List Op)
    (htidy : Ledger.Along (step handler) (Tidy handler)
      (new ((TimerWheel.new numSlots tickMs).run before).1) ops) :
    ∀ done, done <+: ops →
      ((new ((TimerWheel.new numSlots tickMs).run before).1).run handler done).OneTimer := by
  rintro done ⟨rest, rfl⟩
  have hw : ((TimerWheel.new numSlots tickMs).run before).1.Valid :=
    (TimerWheel.new_valid hslots tickMs).run before
  have hrun := Ledger.Along.preserves (fun n : KeepAlive => n.Sane ∧ n.Single ∧ n.Stopped)
    (fun _ op hn htidy => ⟨hn.1.step op, hn.2.1.step hn.1 hn.2.2 htidy⟩)
    ⟨new_sane hw, new_single _, fun hclosed => by simp [new] at hclosed⟩
    ((Ledger.along_append _ done rest).mp htidy).1
  exact hrun.2.1.oneTimer hrun.2.2

/-- A message, a ping, its answer and a CLOSE, on a wheel that has issued a timer before. -/
theorem run_oneTimer_answered :
    let ops : List Op := [.read (.frame {}) [] [], .beginTick, .endTick, .beginTick, .runNext,
      .endTick, .read (.frame { opcode := .pong }) [] [], .read (.frame { opcode := .close }) [] []]
    ((new ((TimerWheel.new 256 1000).run [.call (.addTimer 9000 none)]).1).run
      { pingIntervalMs := 1000 } ops).OneTimer :=
  run_oneTimer { pingIntervalMs := 1000 } (by decide) 1000 [.call (.addTimer 9000 none)] _
    (by decide +kernel) _ (List.prefix_refl _)

/-- The first message on a fresh wheel starts a timer of id `0`, and another one beside it. -/
theorem not_oneTimer_firstMessage :
    ¬ ((new (TimerWheel.new 256 1000)).run { pingIntervalMs := 30000 }
      [.read (.frame {}) [] []]).OneTimer := by
  have hlive : ((new (TimerWheel.new 256 1000)).run { pingIntervalMs := 30000 }
      [.read (.frame {}) [] []]).live = [0, 1] := by decide +kernel
  intro h
  simpa [hlive] using h.1

end KeepAlive

end XNetty
