import XNetty.WebSocket.KeepAlive

/-!
# Steps of the keep-alive

Most of what happens on the loop is none of the handler's: a step has the handler act, or only
loses timers of it.

## Main definitions

* `KeepAlive.Shrinks` — a step that only loses timers of the handler.
* `KeepAlive.step_cases` — all that a step can do.
* `KeepAlive.run_tick` — a tick without timers of the handler is the wheel's.
-/

namespace XNetty

open Event WebSocketHandler

namespace KeepAlive

variable {handler : WebSocketHandler} {m m' m'' : KeepAlive}

/-! ### What a tick has still to run -/

/-- What the handler's parts leave alone. -/
structure Beside (m m' : KeepAlive) : Prop where
  firing : m'.firing = m.firing
  inactive : m'.inactive = m.inactive
  closeHandled : m'.closeHandled = m.closeHandled

theorem beside_perform (m : KeepAlive) (e : WsEffect) : Beside m (m.perform e) := by
  cases e with
  | fireWrite frame =>
    rw [perform]
    split <;> exact ⟨rfl, rfl, rfl⟩
  | _ => exact ⟨rfl, rfl, rfl⟩

theorem beside_act (m : KeepAlive) (f : Session → Session × List WsEffect) :
    Beside m (m.act f) := by
  refine Ledger.foldl_preserves (Beside m) ?_ ?_ _
  · intro n e hn
    have hperformed := beside_perform n e
    exact ⟨hperformed.firing.trans hn.firing, hperformed.inactive.trans hn.inactive,
      hperformed.closeHandled.trans hn.closeHandled⟩
  · exact ⟨rfl, rfl, rfl⟩

@[simp] theorem firing_perform (m : KeepAlive) (e : WsEffect) : (m.perform e).firing = m.firing :=
  (beside_perform m e).firing

@[simp] theorem firing_act (m : KeepAlive) (f : Session → Session × List WsEffect) :
    (m.act f).firing = m.firing := (beside_act m f).firing

@[simp] theorem closeHandled_act (m : KeepAlive) (f : Session → Session × List WsEffect) :
    (m.act f).closeHandled = m.closeHandled := (beside_act m f).closeHandled

@[simp] theorem firing_close (m : KeepAlive) : m.close.firing = m.firing := by
  unfold close
  split
  · rfl
  · exact firing_act _ _

@[simp] theorem closeHandled_close (m : KeepAlive) : m.close.closeHandled = m.closeHandled := by
  unfold close
  split
  · rfl
  · exact closeHandled_act _ _

@[simp] theorem firing_useAll (m : KeepAlive) (us : List LoopUse) :
    (us.foldl use m).firing = m.firing := by
  refine Ledger.foldl_preserves (fun n : KeepAlive => n.firing = m.firing) ?_ rfl us
  intro n u hn
  cases u with
  | timer c => exact hn
  | close => exact (firing_close n).trans hn

@[simp] theorem firing_greet (m : KeepAlive) (atOpen : List LoopUse) :
    (m.greet handler atOpen).firing = m.firing := by
  unfold greet
  split
  · rw [firing_act, firing_useAll]
  · rfl

@[simp] theorem firing_onFrame (m : KeepAlive) (frame : WebSocketFrame)
    (atMessage : List LoopUse) : (m.onFrame handler frame atMessage).firing = m.firing := by
  unfold onFrame
  simp only
  split_ifs <;> simp

/-! ### Steps that only lose timers -/

/-- The handler has not acted, and may have lost timers. -/
structure Shrinks (m m' : KeepAlive) : Prop where
  ws : m'.ws = m.ws
  tasks : m'.tasks = m.tasks
  history : m'.history = m.history
  inactive : m'.inactive = m.inactive
  closeHandled : m'.closeHandled = m.closeHandled
  live : m'.live.Subperm m.live
  pending : m'.pending.Subperm m.pending

theorem Shrinks.refl (m : KeepAlive) : Shrinks m m :=
  ⟨rfl, rfl, rfl, rfl, rfl, .refl _, .refl _⟩

theorem Shrinks.trans (h : Shrinks m m') (h' : Shrinks m' m'') : Shrinks m m'' where
  ws := h'.ws.trans h.ws
  tasks := h'.tasks.trans h.tasks
  history := h'.history.trans h.history
  inactive := h'.inactive.trans h.inactive
  closeHandled := h'.closeHandled.trans h.closeHandled
  live := h'.live.trans h.live
  pending := h'.pending.trans h.pending

/-- A timer that is not the handler's comes and goes unseen. -/
theorem live_timer (hm : m.Sane) (c : Call) : (m.use (.timer c)).live.Subperm m.live := by
  cases c with
  | addTimer delayMs callback =>
    have hnew : (m.tasks m.wheel.nextId).isSome = false :=
      Bool.eq_false_iff.mpr fun hown => (hm.issued _ hown).false
    have hperm := (TimerWheel.uncanceled_addTimer hm.valid delayMs callback).filter fun id =>
      (m.tasks id).isSome
    rw [List.filter_cons_of_neg (by simp [hnew])] at hperm
    exact hperm.subperm
  | cancelTimer timerId =>
    have hlive := TimerWheel.uncanceled_cancelTimer hm.valid timerId
    have hsub : (m.use (.timer (.cancelTimer timerId))).live.Sublist m.live := by
      simp only [live, use, TimerWheel.call_cancelTimer, hlive]
      exact List.filter_sublist.filter _
    exact hsub.subperm

theorem shrinks_timer (hm : m.Sane) (c : Call) : Shrinks m (m.use (.timer c)) where
  ws := rfl
  tasks := rfl
  history := rfl
  inactive := rfl
  closeHandled := rfl
  live := live_timer hm c
  pending := (List.subperm_append_left m.taken).mpr (live_timer hm c)

theorem callAll_eq_foldl (m : KeepAlive) (cs : List Call) :
    ({ m with wheel := (m.wheel.callAll cs).1 } : KeepAlive) =
      (cs.map LoopUse.timer).foldl use m := by
  induction cs generalizing m with
  | nil => rfl
  | cons c cs ih => exact ih (m.use (.timer c))

theorem shrinks_timers (hm : m.Sane) (cs : List Call) :
    Shrinks m ((cs.map LoopUse.timer).foldl use m) := by
  induction cs generalizing m with
  | nil => exact .refl m
  | cons c cs ih => exact (shrinks_timer hm c).trans (ih (hm.timer c))

/-- Some of the tick's entries are done with, or lost. -/
theorem shrinks_firing {firing : Option (List TimerEntry)}
    (h : (firing.getD []).Sublist (m.firing.getD [])) : Shrinks m { m with firing } where
  ws := rfl
  tasks := rfl
  history := rfl
  inactive := rfl
  closeHandled := rfl
  live := .refl _
  pending := ((h.map TimerEntry.id).filter _).subperm.append (.refl _)

theorem Sane.firing (hm : m.Sane) {firing : Option (List TimerEntry)}
    (h : (firing.getD []).Sublist (m.firing.getD [])) : Sane { m with firing } where
  valid := hm.valid
  issued := hm.issued
  due_issued e he := hm.due_issued e (h.subset he)

variable (handler) in
/-- What the callback of an entry does that is not the handler's. -/
theorem runEntry_foreign {entry : TimerEntry} (hforeign : m.tasks entry.id = none) :
    ∃ (cs : List Call) (firing : Option (List TimerEntry)),
      m.runEntry handler entry = (cs.map LoopUse.timer).foldl use { m with firing } ∧
        (firing.getD []).Sublist (m.firing.getD []) := by
  unfold runEntry
  rw [hforeign]
  cases hcallback : entry.callback with
  | none => exact ⟨[], m.firing, rfl, .refl _⟩
  | some callback =>
    refine ⟨callback.calls, if callback.throws then none else m.firing, ?_, ?_⟩
    · rw [← callAll_eq_foldl]
    · by_cases hthrows : callback.throws <;> simp [hthrows]

variable (handler) in
theorem shrinks_runEntry (hm : m.Sane) {entry : TimerEntry} (hforeign : m.tasks entry.id = none) :
    Shrinks m (m.runEntry handler entry) ∧ (m.runEntry handler entry).Sane := by
  obtain ⟨cs, firing, heq, hsub⟩ := runEntry_foreign handler hforeign
  rw [heq]
  exact ⟨(shrinks_firing hsub).trans (shrinks_timers (hm.firing hsub) cs),
    (hm.firing hsub).useAll _⟩

theorem shrinks_beginTick (hm : m.Sane) (hidle : m.firing = none) :
    Shrinks m { m with firing := some m.wheel.toFire, wheel := m.wheel.swapped } := by
  have hsub := (TimerWheel.uncanceled_swapped hm.valid).filter fun id => (m.tasks id).isSome
  rw [List.filter_append] at hsub
  have hpending : m.pending = m.live := by simp [pending, taken, hidle]
  refine ⟨rfl, rfl, rfl, rfl, rfl, ?_, ?_⟩
  · exact (List.sublist_append_right _ _).subperm.trans hsub
  · rw [hpending]
    exact hsub

theorem Sane.beginTick (hm : m.Sane) :
    Sane { m with firing := some m.wheel.toFire, wheel := m.wheel.swapped } where
  valid := hm.valid.swapped
  issued := hm.issued
  due_issued e he := hm.valid.issued e (TimerWheel.mem_slot (List.mem_of_mem_filter he))

/-! ### Steps -/

variable (handler) in
/-- A step loses timers of the handler, or has the handler act: on a message, on the end of the
connection, or on a timer of its own. -/
theorem step_cases (hm : m.Sane) (op : Op) :
    (Shrinks m (m.step handler op) ∧ (m.step handler op).Sane) ∨
    (∃ msg atOpen atMessage, op = .read msg atOpen atMessage ∧ m.firing = none ∧
      m.step handler op = m.channelRead handler msg atOpen atMessage) ∨
    (op = .use .close ∧ m.step handler op = m.close) ∨
    (∃ entry toFire task, op = .runNext ∧ m.firing = some (entry :: toFire) ∧
      m.tasks entry.id = some task ∧ m.step handler op =
        ({ m with firing := some toFire } : KeepAlive).runTask handler entry.id task) := by
  cases op with
  | read msg atOpen atMessage =>
    by_cases hidle : m.firing.isSome || m.released
    · exact .inl (by simpa [step, hidle] using ⟨Shrinks.refl m, hm⟩)
    · refine .inr (.inl ⟨msg, atOpen, atMessage, rfl, ?_, if_neg hidle⟩)
      simp only [Bool.or_eq_true, not_or] at hidle
      simpa using hidle.1
  | use u =>
    cases u with
    | timer c => exact .inl ⟨shrinks_timer hm c, hm.timer c⟩
    | close => exact .inr (.inr (.inl ⟨rfl, rfl⟩))
  | writeFails =>
    exact .inl ⟨⟨rfl, rfl, rfl, rfl, rfl, .refl _, .refl _⟩, hm.of_eq rfl rfl rfl⟩
  | release =>
    exact .inl ⟨⟨rfl, rfl, rfl, rfl, rfl, .refl _, .refl _⟩, hm.of_eq rfl rfl rfl⟩
  | beginTick =>
    cases hfiring : m.firing with
    | some toFire => exact .inl (by simpa [step, hfiring] using ⟨Shrinks.refl m, hm⟩)
    | none =>
      exact .inl (by simpa [step, hfiring] using ⟨shrinks_beginTick hm hfiring, hm.beginTick⟩)
  | runNext =>
    rcases hfiring : m.firing with _ | _ | ⟨entry, toFire⟩
    · exact .inl (by simpa [step, hfiring] using ⟨Shrinks.refl m, hm⟩)
    · exact .inl (by simpa [step, hfiring] using ⟨Shrinks.refl m, hm⟩)
    · have hsub : ((some toFire).getD []).Sublist (m.firing.getD []) := by simp [hfiring]
      cases htask : m.tasks entry.id with
      | none =>
        have hrun := shrinks_runEntry handler (hm.firing hsub) htask
        refine .inl ?_
        simpa [step, hfiring] using ⟨(shrinks_firing hsub).trans hrun.1, hrun.2⟩
      | some task =>
        refine .inr (.inr (.inr ⟨entry, toFire, task, rfl, rfl, htask, ?_⟩))
        simp [step, hfiring, runEntry, htask]
  | endTick =>
    rcases hfiring : m.firing with _ | _ | ⟨entry, toFire⟩
    · exact .inl (by simpa [step, hfiring] using ⟨Shrinks.refl m, hm⟩)
    · refine .inl ?_
      have hsub : ((none : Option (List TimerEntry)).getD []).Sublist (m.firing.getD []) := by simp
      have hturn : m.step handler .endTick =
          { m with firing := none, wheel := m.wheel.advance } := by simp [step, hfiring]
      rw [hturn]
      exact ⟨⟨rfl, rfl, rfl, rfl, rfl, .refl _, (shrinks_firing hsub).pending⟩,
        hm.valid.advance, hm.issued, (hm.firing hsub).due_issued⟩
    · exact .inl (by simpa [step, hfiring] using ⟨Shrinks.refl m, hm⟩)

theorem Sane.runTask (hm : m.Sane) (timerId : ℕ) (task : TimerTask) :
    (m.runTask handler timerId task).Sane := by
  cases task with
  | ping =>
    rw [KeepAlive.runTask]
    split
    · exact hm
    · exact hm.act _
  | pongTimeout =>
    rw [KeepAlive.runTask]
    split
    · exact hm
    · refine Sane.close ?_
      exact hm.of_eq rfl rfl rfl

theorem Sane.step (hm : m.Sane) (op : Op) : (m.step handler op).Sane := by
  rcases step_cases handler hm op with ⟨-, hsane⟩ | ⟨msg, atOpen, atMessage, -, -, heq⟩ |
    ⟨-, heq⟩ | ⟨entry, toFire, task, -, hfiring, -, heq⟩
  · exact hsane
  · rw [heq]
    exact hm.channelRead msg atOpen atMessage
  · rw [heq]
    exact hm.close
  · rw [heq]
    refine (hm.firing ?_).runTask entry.id task
    simp [hfiring]

/-! ### A tick of the wheel -/

theorem runNexts_of_thrown (hidle : m.firing = none) (n : ℕ) :
    (List.replicate n Op.runNext).foldl (step handler) m = m := by
  induction n with
  | zero => rfl
  | succ n ih =>
    have hone : m.step handler .runNext = m := by simp [step, hidle]
    rw [List.replicate_succ, List.foldl_cons, hone, ih]

/-- The loop over `toFire`, where no entry is the handler's. -/
theorem runNexts_foreign (m : KeepAlive) (w : TimerWheel) (toFire : List TimerEntry)
    (hforeign : ∀ e ∈ toFire, m.tasks e.id = none) :
    (List.replicate toFire.length Op.runNext).foldl (step handler)
        { m with wheel := w, firing := some toFire } =
      { m with
        wheel := (w.runCallbacks toFire).wheel
        firing := if (w.runCallbacks toFire).threw then none else some [] } := by
  induction toFire generalizing w with
  | nil => rfl
  | cons entry toFire ih =>
    obtain ⟨hentry, hrest⟩ := List.forall_mem_cons.mp hforeign
    rw [List.length_cons, List.replicate_succ, List.foldl_cons]
    cases hcallback : entry.callback with
    | none =>
      have hone : ({ m with wheel := w, firing := some (entry :: toFire) } : KeepAlive).step handler
          .runNext = { m with wheel := w, firing := some toFire } := by
        simp [step, runEntry, hentry, hcallback]
      rw [hone, ih w hrest, TimerWheel.runCallbacks, hcallback]
    | some callback =>
      have hone : ({ m with wheel := w, firing := some (entry :: toFire) } : KeepAlive).step handler
          .runNext = { m with
            wheel := (w.callAll callback.calls).1
            firing := if callback.throws then none else some toFire } := by
        simp [step, runEntry, hentry, hcallback]
      rw [hone, TimerWheel.runCallbacks, hcallback]
      by_cases hthrows : callback.throws
      · simp only [hthrows, if_true]
        exact runNexts_of_thrown rfl toFire.length
      · simp only [hthrows, if_false, Bool.false_eq_true]
        exact ih _ hrest

variable (handler) in
/-- **A tick** in which no timer of the handler is due is the wheel's. -/
theorem run_tick (hidle : m.firing = none)
    (hforeign : ∀ e ∈ m.wheel.toFire, m.tasks e.id = none) :
    m.run handler (.beginTick :: List.replicate m.wheel.toFire.length .runNext ++ [.endTick]) =
      { m with wheel := m.wheel.tick.wheel } := by
  have hbegin : m.step handler .beginTick =
      { m with wheel := m.wheel.swapped, firing := some m.wheel.toFire } := by simp [step, hidle]
  rw [run, List.cons_append, List.foldl_cons, hbegin, List.foldl_append,
    runNexts_foreign m m.wheel.swapped m.wheel.toFire hforeign, TimerWheel.tick]
  by_cases hthrew : (m.wheel.swapped.runCallbacks m.wheel.toFire).threw <;>
    simp [hthrew, step, hidle]

end KeepAlive

end XNetty
