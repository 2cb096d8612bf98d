import XNetty.Event.TimerWheel

/-!
# The timers of an event loop

`EventLoop::advanceTimer` turns the wheel as often as whole ticks have passed on the clock, so
the wheel is behind the clock while a handler runs and catches up several ticks at once. Time
passes between any two things the loop does: `clock n` is the steady clock when it does its
`n`-th.

## Main definitions

* `LoopTimer` — the loop's wheel, its `lastTimerTick_`, and what was added and fired when.
* `LoopTimer.run` — iterations of `EventLoop::loop`.
-/

namespace XNetty.Event

/-- What a run of the loop shows of its timers. -/
inductive TimedEvent where
  /-- `runAfter` was called, with the wheel at `tick` and the wheel's time at `wheelTime`. -/
  | added (timerId delayMs time tick wheelTime : ℕ)
  | fired (timerId time : ℕ)
  /-- An exception left the catch-up loop behind this many whole ticks. -/
  | aborted (caughtUp : ℕ)
  deriving DecidableEq

structure LoopTimer where
  timerWheel : TimerWheel
  lastTimerTick : ℕ
  /-- The ticks that the catch-up loop under way has done. -/
  caughtUp : ℕ := 0
  /-- How often the clock has been read. -/
  readings : ℕ := 0
  log : List TimedEvent := []

/-- One turn of `EventLoop::loop`: what the handlers of events do, what `onTimerTick` does
behind each tick, and what the queued functors do. -/
structure Iteration where
  handled : Callback := { calls := [] }
  onTimerTick : ℕ → Callback := fun _ => { calls := [] }
  functors : Callback := { calls := [] }

namespace LoopTimer

variable (clock : ℕ → ℕ)

/-- The clock time up to which the wheel has been turned. -/
def wheelTime (s : LoopTimer) : ℕ := s.lastTimerTick + s.caughtUp * s.timerWheel.tickMs

/-- `EventLoop::runAfter` and `EventLoop::cancelTimer`. -/
def call (s : LoopTimer) (c : Call) : LoopTimer :=
  { s with
    timerWheel := (s.timerWheel.call c).1
    readings := s.readings + 1
    log := s.log ++
      match c with
      | .addTimer delayMs _ =>
        [.added s.timerWheel.nextId delayMs (clock s.readings) s.timerWheel.currentTick s.wheelTime]
      | .cancelTimer _ => [] }

def callAll (s : LoopTimer) (calls : List Call) : LoopTimer := calls.foldl (call clock) s

/-- The invocation of a callback. -/
def fire (s : LoopTimer) (timerId : ℕ) : LoopTimer :=
  { s with
    readings := s.readings + 1
    log := s.log ++ [.fired timerId (clock s.readings)] }

/-- The loop of `TimerWheel::tick` over `toFire`, and whether it was left by an exception. -/
def runCallbacks (s : LoopTimer) : List TimerEntry → LoopTimer × Bool
  | [] => (s, false)
  | entry :: toFire =>
    match entry.callback with
    | none => s.runCallbacks toFire
    | some callback =>
      let called := (s.fire clock entry.id).callAll clock callback.calls
      if callback.throws then (called, true) else called.runCallbacks toFire

/-- `TimerWheel::tick` with the clock running. -/
def tick (s : LoopTimer) : LoopTimer × Bool :=
  let ran := { s with timerWheel := s.timerWheel.swapped }.runCallbacks clock s.timerWheel.toFire
  if ran.2 then ran
  else
    ({ ran.1 with timerWheel := ran.1.timerWheel.advance, caughtUp := ran.1.caughtUp + 1 }, false)

/-- The catch-up loop of `advanceTimer`. -/
def catchUp (onTimerTick : ℕ → Callback) (s : LoopTimer) : ℕ → LoopTimer × Bool
  | 0 => (s, false)
  | remaining + 1 =>
    let ticked := s.tick clock
    if ticked.2 then ticked
    else
      let callback := onTimerTick s.caughtUp
      let called := ticked.1.callAll clock callback.calls
      if callback.throws then (called, true)
      else catchUp onTimerTick called remaining

/-- `EventLoop::advanceTimer`. -/
def advanceTimer (onTimerTick : ℕ → Callback) (s : LoopTimer) : LoopTimer × Bool :=
  let now := clock s.readings
  let s := { s with readings := s.readings + 1, caughtUp := 0 }
  let elapsed := now - s.lastTimerTick
  let tickMs := s.timerWheel.tickMs
  if tickMs ≤ elapsed then
    let caught := s.catchUp clock onTimerTick (elapsed / tickMs)
    if caught.2 then ({ caught.1 with log := caught.1.log ++ [.aborted caught.1.caughtUp] }, true)
    else
      ({ caught.1 with
          lastTimerTick := s.lastTimerTick + elapsed / tickMs * tickMs
          caughtUp := 0 }, false)
  else (s, false)

/-- One turn of the loop. An exception ends it. -/
def iteration (s : LoopTimer) (it : Iteration) : LoopTimer :=
  let handled := s.callAll clock it.handled.calls
  if it.handled.throws then handled
  else
    let advanced := handled.advanceTimer clock it.onTimerTick
    if advanced.2 then advanced.1 else advanced.1.callAll clock it.functors.calls

def run (s : LoopTimer) (its : List Iteration) : LoopTimer := its.foldl (iteration clock) s

/-- A loop whose `lastTimerTick_` was set at `start`. -/
def new (numSlots tickMs start : ℕ) : LoopTimer :=
  { timerWheel := .new numSlots tickMs, lastTimerTick := start }

end LoopTimer

namespace LoopTimer

variable (clock : ℕ → ℕ)

/-! ### The wheel turns as it does without a clock -/

theorem callAll_timerWheel (s : LoopTimer) (cs : List Call) :
    (s.callAll clock cs).timerWheel = (s.timerWheel.callAll cs).1 := by
  induction cs generalizing s with
  | nil => rfl
  | cons c cs ih => exact ih (s.call clock c)

theorem runCallbacks_timerWheel (s : LoopTimer) (l : List TimerEntry) :
    (s.runCallbacks clock l).1.timerWheel = (s.timerWheel.runCallbacks l).wheel ∧
      (s.runCallbacks clock l).2 = (s.timerWheel.runCallbacks l).threw := by
  induction l generalizing s with
  | nil => exact ⟨rfl, rfl⟩
  | cons entry l ih =>
    unfold runCallbacks TimerWheel.runCallbacks
    cases entry.callback with
    | none => exact ih s
    | some callback =>
      have hcalled := callAll_timerWheel clock (s.fire clock entry.id) callback.calls
      by_cases hthrows : callback.throws
      · simp only [hthrows, if_true]
        exact ⟨hcalled, trivial⟩
      · simp only [hthrows]
        have hrest := ih ((s.fire clock entry.id).callAll clock callback.calls)
        rw [hcalled] at hrest
        exact hrest

/-- **A tick of the loop is a tick of the wheel.** -/
theorem tick_timerWheel (s : LoopTimer) :
    (s.tick clock).1.timerWheel = s.timerWheel.tick.wheel ∧
      (s.tick clock).2 = s.timerWheel.tick.threw := by
  obtain ⟨hwheel, hthrew⟩ := runCallbacks_timerWheel clock
    { s with timerWheel := s.timerWheel.swapped } s.timerWheel.toFire
  unfold tick TimerWheel.tick
  cases hran : (s.timerWheel.swapped.runCallbacks s.timerWheel.toFire).threw with
  | true =>
    simp only [hran] at hthrew
    simpa [hthrew, hran] using hwheel
  | false =>
    simp only [hran] at hthrew
    simpa [hthrew, hran] using congrArg TimerWheel.advance hwheel

/-! ### Time goes on -/

/-- What calls and callbacks do to the loop: they are noted, and time passes. -/
structure Later (s s' : LoopTimer) : Prop where
  log : s.log ⊆ s'.log
  readings : s.readings ≤ s'.readings
  lastTimerTick : s'.lastTimerTick = s.lastTimerTick
  caughtUp : s'.caughtUp = s.caughtUp

theorem Later.refl (s : LoopTimer) : Later s s := ⟨List.Subset.refl _, le_rfl, rfl, rfl⟩

theorem Later.trans {s s' s'' : LoopTimer} (h : Later s s') (h' : Later s' s'') : Later s s'' where
  log := List.Subset.trans h.log h'.log
  readings := h.readings.trans h'.readings
  lastTimerTick := h'.lastTimerTick.trans h.lastTimerTick
  caughtUp := h'.caughtUp.trans h.caughtUp

theorem later_call (s : LoopTimer) (c : Call) : Later s (s.call clock c) :=
  ⟨List.subset_append_left _ _, Nat.le_succ _, rfl, rfl⟩

theorem later_fire (s : LoopTimer) (id : ℕ) : Later s (s.fire clock id) :=
  ⟨List.subset_append_left _ _, Nat.le_succ _, rfl, rfl⟩

theorem later_callAll (s : LoopTimer) (cs : List Call) : Later s (s.callAll clock cs) := by
  induction cs generalizing s with
  | nil => exact .refl s
  | cons c cs ih => exact (later_call clock s c).trans (ih _)

theorem later_runCallbacks (s : LoopTimer) (l : List TimerEntry) :
    Later s (s.runCallbacks clock l).1 := by
  induction l generalizing s with
  | nil => exact .refl s
  | cons entry l ih =>
    unfold runCallbacks
    cases entry.callback with
    | none => exact ih s
    | some callback =>
      have hcalled : Later s ((s.fire clock entry.id).callAll clock callback.calls) :=
        (later_fire clock s entry.id).trans (later_callAll clock _ _)
      by_cases hthrows : callback.throws
      · simpa [hthrows] using hcalled
      · simpa [hthrows] using hcalled.trans (ih _)

/-- A tick is later, and counts unless an exception leaves it. -/
theorem later_tick (s : LoopTimer) :
    Later { s with caughtUp := if (s.tick clock).2 then s.caughtUp else s.caughtUp + 1 }
      (s.tick clock).1 := by
  have hran := later_runCallbacks clock
    { s with timerWheel := s.timerWheel.swapped } s.timerWheel.toFire
  unfold tick
  by_cases hthrew : (({ s with timerWheel := s.timerWheel.swapped } : LoopTimer).runCallbacks clock
      s.timerWheel.toFire).2
  · simp only [hthrew, if_true]
    exact ⟨hran.log, hran.readings, hran.lastTimerTick, hran.caughtUp⟩
  · simp only [hthrew]
    exact ⟨hran.log, hran.readings, hran.lastTimerTick, congrArg (· + 1) hran.caughtUp⟩

/-! ### Relations along a run -/

variable {clock} {R : LoopTimer → LoopTimer → Prop}

/-- A relation of what was and what is, which calls and ticks keep. -/
structure TickRelation (clock : ℕ → ℕ) (R : LoopTimer → LoopTimer → Prop) : Prop where
  refl : ∀ s, R s s
  trans : ∀ {s s' s''}, R s s' → R s' s'' → R s s''
  callAll : ∀ s cs, R s (s.callAll clock cs)
  tick : ∀ s, R s (s.tick clock).1

theorem TickRelation.catchUp (h : TickRelation clock R) (onTimerTick : ℕ → Callback)
    (s : LoopTimer) (remaining : ℕ) : R s (s.catchUp clock onTimerTick remaining).1 := by
  induction remaining generalizing s with
  | zero => exact h.refl s
  | succ remaining ih =>
    have hticked := h.tick s
    have hcalled := h.trans hticked
      (h.callAll (s.tick clock).1 (onTimerTick s.caughtUp).calls)
    unfold LoopTimer.catchUp
    dsimp only
    split
    · exact hticked
    · split
      · exact hcalled
      · exact h.trans hcalled (ih _)

/-- One that is kept, too, where catching up begins and where it ends. -/
structure LoopRelation (clock : ℕ → ℕ) (R : LoopTimer → LoopTimer → Prop) : Prop
    extends TickRelation clock R where
  started : ∀ s, R s { s with readings := s.readings + 1, caughtUp := 0 }
  aborted : ∀ s, R s { s with log := s.log ++ [.aborted s.caughtUp] }
  finished : ∀ s lastTimerTick, R s { s with lastTimerTick, caughtUp := 0 }

theorem LoopRelation.advanceTimer (h : LoopRelation clock R) (onTimerTick : ℕ → Callback)
    (s : LoopTimer) : R s (s.advanceTimer clock onTimerTick).1 := by
  have hcaught := h.trans (h.started s) (h.catchUp onTimerTick
    { s with readings := s.readings + 1, caughtUp := 0 }
    ((clock s.readings - s.lastTimerTick) / s.timerWheel.tickMs))
  unfold LoopTimer.advanceTimer
  dsimp only
  split
  · split
    · exact h.trans hcaught (h.aborted _)
    · exact h.trans hcaught (h.finished _ _)
  · exact h.started s

theorem LoopRelation.iteration (h : LoopRelation clock R) (s : LoopTimer) (it : Iteration) :
    R s (s.iteration clock it) := by
  have hhandled := h.callAll s it.handled.calls
  have hadvanced := h.trans hhandled (h.advanceTimer it.onTimerTick _)
  unfold LoopTimer.iteration
  dsimp only
  split
  · exact hhandled
  · split
    · exact hadvanced
    · exact h.trans hadvanced (h.callAll _ _)

/-- **A run of the loop** keeps what its parts keep. -/
theorem LoopRelation.run (h : LoopRelation clock R) (s : LoopTimer) (its : List Iteration) :
    R s (s.run clock its) := by
  induction its generalizing s with
  | nil => exact h.refl s
  | cons it its ih => exact h.trans (h.iteration s it) (ih _)

end LoopTimer

end XNetty.Event
