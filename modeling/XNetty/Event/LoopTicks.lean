import XNetty.Event.LoopTimer

/-!
# Counting the ticks of a loop

`advanceTimer` rounds the time since `lastTimerTick_` down to whole ticks and carries the rest
over, so the ticks done since the start are the whole ticks on the clock. An exception that
leaves the catch-up loop skips the update of `lastTimerTick_`: the ticks that the loop had done
are done once more.

## Main definitions

* `LoopTimer.runTicks` — the ticks done along a run.
* `recounted` — the ticks that exceptions made the loop do once more.
* `runTicks_advanceTimer` — how many ticks are done when `advanceTimer` returns.
-/

namespace XNetty.Event

def TimedEvent.recount : TimedEvent → ℕ
  | .aborted caughtUp => caughtUp
  | _ => 0

/-- The ticks behind which exceptions left the catch-up loop. -/
def recounted (log : List TimedEvent) : ℕ := (log.map TimedEvent.recount).sum

@[simp] theorem recounted_append (log log' : List TimedEvent) :
    recounted (log ++ log') = recounted log + recounted log' := by
  simp [recounted]

@[simp] theorem recounted_aborted (caughtUp : ℕ) : recounted [.aborted caughtUp] = caughtUp :=
  Nat.add_zero caughtUp

namespace LoopTimer

section

variable (clock : ℕ → ℕ)

/-- The ticks that a call of `advanceTimer` does, complete ones only. -/
def advanceTicks (onTimerTick : ℕ → Callback) (s : LoopTimer) : ℕ :=
  let elapsed := clock s.readings - s.lastTimerTick
  let s' := { s with readings := s.readings + 1, caughtUp := 0 }
  if s.timerWheel.tickMs ≤ elapsed then
    (s'.catchUp clock onTimerTick (elapsed / s.timerWheel.tickMs)).1.caughtUp
  else 0

def iterationTicks (s : LoopTimer) (it : Iteration) : ℕ :=
  if it.handled.throws then 0
  else (s.callAll clock it.handled.calls).advanceTicks clock it.onTimerTick

/-- The ticks done by the iterations of a run. -/
def runTicks (s : LoopTimer) : List Iteration → ℕ
  | [] => 0
  | it :: its => s.iterationTicks clock it + (s.iteration clock it).runTicks its

end

/-! ### The wheel and the clock -/

/-- The wheel has done `k` ticks, and `lastTimerTick_` is `k - ahead` ticks past the start. -/
structure Turned (start tickMs ahead k : ℕ) (s : LoopTimer) : Prop where
  tickMs_eq : s.timerWheel.tickMs = tickMs
  currentTick : s.timerWheel.currentTick = k % 2 ^ 64
  time : s.lastTimerTick + ahead * tickMs = start + k * tickMs

variable {clock : ℕ → ℕ} {start tickMs ahead k : ℕ} {s : LoopTimer}

theorem turned_new (numSlots tickMs start : ℕ) :
    Turned start tickMs 0 0 (new numSlots tickMs start) :=
  ⟨rfl, rfl, by simp [new]⟩

theorem Turned.congr (h : Turned start tickMs ahead k s) {s' : LoopTimer}
    (hwheel : TimerWheel.Still s.timerWheel s'.timerWheel)
    (hlast : s'.lastTimerTick = s.lastTimerTick) : Turned start tickMs ahead k s' where
  tickMs_eq := hwheel.tickMs.trans h.tickMs_eq
  currentTick := hwheel.currentTick.trans h.currentTick
  time := hlast ▸ h.time

theorem Turned.callAll (h : Turned start tickMs ahead k s) (cs : List Call) :
    Turned start tickMs ahead k (s.callAll clock cs) := by
  refine h.congr ?_ (later_callAll clock s cs).lastTimerTick
  rw [callAll_timerWheel]
  exact s.timerWheel.still_callAll cs

theorem Turned.tick (h : Turned start tickMs ahead k s) (hthrew : (s.tick clock).2 = false) :
    Turned start tickMs (ahead + 1) (k + 1) (s.tick clock).1 := by
  obtain ⟨hwheel, hthrow⟩ := tick_timerWheel clock s
  obtain ⟨hms, htick⟩ := s.timerWheel.tick_currentTick
  rw [← hthrow, hthrew] at htick
  refine ⟨hwheel ▸ hms.trans h.tickMs_eq, ?_, ?_⟩
  · rw [hwheel, htick, h.currentTick]
    exact Nat.mod_add_mod k _ 1
  · rw [(later_tick clock s).lastTimerTick]
    have htime := h.time
    linarith

theorem Turned.tick_threw (h : Turned start tickMs ahead k s) (hthrew : (s.tick clock).2 = true) :
    Turned start tickMs ahead k (s.tick clock).1 := by
  obtain ⟨hwheel, hthrow⟩ := tick_timerWheel clock s
  obtain ⟨hms, htick⟩ := s.timerWheel.tick_currentTick
  rw [← hthrow, hthrew] at htick
  refine ⟨hwheel ▸ hms.trans h.tickMs_eq, hwheel ▸ htick.trans h.currentTick, ?_⟩
  rw [(later_tick clock s).lastTimerTick]
  exact h.time

/-! ### What exceptions make the loop do once more -/

theorem recounted_call (s : LoopTimer) (c : Call) :
    recounted (s.call clock c).log = recounted s.log := by
  cases c <;> simp [call, recounted, TimedEvent.recount]

theorem recounted_callAll (clock : ℕ → ℕ) (s : LoopTimer) (cs : List Call) :
    recounted (s.callAll clock cs).log = recounted s.log := by
  induction cs generalizing s with
  | nil => rfl
  | cons c cs ih => exact (ih (s.call clock c)).trans (recounted_call s c)

theorem recounted_runCallbacks (clock : ℕ → ℕ) (s : LoopTimer) (l : List TimerEntry) :
    recounted (s.runCallbacks clock l).1.log = recounted s.log := by
  induction l generalizing s with
  | nil => rfl
  | cons entry l ih =>
    unfold runCallbacks
    cases entry.callback with
    | none => exact ih s
    | some callback =>
      have hcalled : recounted ((s.fire clock entry.id).callAll clock callback.calls).log =
          recounted s.log :=
        (recounted_callAll clock _ _).trans (by simp [fire, recounted, TimedEvent.recount])
      by_cases hthrows : callback.throws
      · simpa [hthrows] using hcalled
      · simpa [hthrows] using (ih _).trans hcalled

theorem recounted_tick (s : LoopTimer) :
    recounted (s.tick clock).1.log = recounted s.log := by
  have hran := recounted_runCallbacks clock
    { s with timerWheel := s.timerWheel.swapped } s.timerWheel.toFire
  unfold tick
  dsimp only
  split <;> exact hran

theorem recounted_catchUp (clock : ℕ → ℕ) (onTimerTick : ℕ → Callback) (s : LoopTimer)
    (remaining : ℕ) :
    recounted (s.catchUp clock onTimerTick remaining).1.log = recounted s.log := by
  have hrelation : TickRelation clock fun s s' => recounted s'.log = recounted s.log :=
    ⟨fun _ => rfl, fun h h' => h'.trans h, recounted_callAll clock, recounted_tick⟩
  exact hrelation.catchUp onTimerTick s remaining

/-- Only an exception adds to what is done once more. -/
theorem recounted_advanceTimer {onTimerTick : ℕ → Callback} {s : LoopTimer}
    (hreturns : (s.advanceTimer clock onTimerTick).2 = false) :
    recounted (s.advanceTimer clock onTimerTick).1.log = recounted s.log := by
  have hcaught := recounted_catchUp clock onTimerTick
    { s with readings := s.readings + 1, caughtUp := 0 }
    ((clock s.readings - s.lastTimerTick) / s.timerWheel.tickMs)
  unfold advanceTimer at hreturns ⊢
  dsimp only at hreturns ⊢
  split at hreturns
  · split at hreturns
    · simp at hreturns
    · rename_i helapsed hthrew
      simpa only [helapsed, hthrew, if_true, if_false, Bool.false_eq_true] using hcaught
  · rename_i helapsed
    simp only [helapsed, if_false]

/-! ### The catch-up loop -/

/-- What the catch-up loop does, whether an exception leaves it or not. -/
structure CaughtUp (start tickMs ahead k : ℕ) (s s' : LoopTimer) (ticks : ℕ) : Prop where
  turned : Turned start tickMs (ahead + ticks) (k + ticks) s'
  caughtUp : s'.caughtUp = s.caughtUp + ticks
  lastTimerTick : s'.lastTimerTick = s.lastTimerTick
  readings : s.readings ≤ s'.readings

/-- One turn of the catch-up loop that is not left by an exception of the tick. -/
theorem Turned.turn (h : Turned start tickMs ahead k s) (hthrew : (s.tick clock).2 = false)
    (cs : List Call) : CaughtUp start tickMs ahead k s ((s.tick clock).1.callAll clock cs) 1 := by
  have hlater := (later_tick clock s).trans (later_callAll clock (s.tick clock).1 cs)
  rw [hthrew] at hlater
  exact ⟨(h.tick hthrew).callAll cs, hlater.caughtUp, hlater.lastTimerTick, hlater.readings⟩

theorem CaughtUp.trans {s' s'' : LoopTimer} {m n : ℕ} (h : CaughtUp start tickMs ahead k s s' m)
    (h' : CaughtUp start tickMs (ahead + m) (k + m) s' s'' n) :
    CaughtUp start tickMs ahead k s s'' (m + n) where
  turned := by simpa only [add_assoc] using h'.turned
  caughtUp := by rw [h'.caughtUp, h.caughtUp, add_assoc]
  lastTimerTick := h'.lastTimerTick.trans h.lastTimerTick
  readings := h.readings.trans h'.readings

theorem Turned.catchUp (clock : ℕ → ℕ) (h : Turned start tickMs ahead k s)
    (onTimerTick : ℕ → Callback) (remaining : ℕ) :
    ∃ ticks, CaughtUp start tickMs ahead k s (s.catchUp clock onTimerTick remaining).1 ticks ∧
      ((s.catchUp clock onTimerTick remaining).2 = false → ticks = remaining) := by
  induction remaining generalizing s ahead k with
  | zero => exact ⟨0, ⟨h, rfl, rfl, le_rfl⟩, fun _ => rfl⟩
  | succ remaining ih =>
    unfold LoopTimer.catchUp
    cases hthrew : (s.tick clock).2 with
    | true =>
      have hlater := later_tick clock s
      rw [hthrew] at hlater
      simp only [hthrew, if_true]
      exact ⟨0, ⟨h.tick_threw hthrew, hlater.caughtUp, hlater.lastTimerTick, hlater.readings⟩,
        fun hfalse => by simp at hfalse⟩
    | false =>
      have hturn := h.turn hthrew (onTimerTick s.caughtUp).calls
      by_cases hthrows : (onTimerTick s.caughtUp).throws
      · simp only [hthrew, hthrows, if_true, Bool.false_eq_true, if_false]
        exact ⟨1, hturn, fun hfalse => by simp at hfalse⟩
      · simp only [hthrew, hthrows, Bool.false_eq_true, if_false]
        obtain ⟨ticks, hrest, hall⟩ := ih hturn.turned
        exact ⟨1 + ticks, hturn.trans hrest, fun hfalse => by rw [hall hfalse, add_comm]⟩

/-! ### Iterations -/

/-- Between what the loop does: the clock has come to `lastTimerTick_`. -/
structure Counted (clock : ℕ → ℕ) (start tickMs k : ℕ) (s : LoopTimer) : Prop where
  turned : Turned start tickMs (recounted s.log) k s
  past : s.lastTimerTick ≤ clock s.readings

theorem Counted.callAll (hclock : Monotone clock) (h : Counted clock start tickMs k s)
    (cs : List Call) : Counted clock start tickMs k (s.callAll clock cs) := by
  have hlater := later_callAll clock s cs
  refine ⟨?_, ?_⟩
  · rw [recounted_callAll clock]
    exact h.turned.callAll cs
  · rw [hlater.lastTimerTick]
    exact h.past.trans (hclock hlater.readings)

/-- A call of `advanceTimer` in the middle of a run. If it returns, less than a tick is left to
the clock it has read. -/
theorem Counted.advanceTimer (hclock : Monotone clock) (htick : 0 < tickMs)
    (h : Counted clock start tickMs k s) (onTimerTick : ℕ → Callback) :
    Counted clock start tickMs (k + s.advanceTicks clock onTimerTick)
        (s.advanceTimer clock onTimerTick).1 ∧
      ((s.advanceTimer clock onTimerTick).2 = false →
        (s.advanceTimer clock onTimerTick).1.lastTimerTick ≤ clock s.readings ∧
          clock s.readings < (s.advanceTimer clock onTimerTick).1.lastTimerTick + tickMs) := by
  have hread : Turned start tickMs (recounted s.log) k
      { s with readings := s.readings + 1, caughtUp := 0 } :=
    h.turned.congr (.refl _) rfl
  have hlater : clock s.readings ≤ clock (s.readings + 1) := hclock (Nat.le_succ _)
  unfold LoopTimer.advanceTimer advanceTicks
  dsimp only
  rw [h.turned.tickMs_eq]
  by_cases helapsed : tickMs ≤ clock s.readings - s.lastTimerTick
  · obtain ⟨ticks, hcaught, hall⟩ := Turned.catchUp clock hread onTimerTick
      ((clock s.readings - s.lastTimerTick) / tickMs)
    have hdone := hcaught.caughtUp
    have hlast := hcaught.lastTimerTick
    have hsame := recounted_catchUp clock onTimerTick
      { s with readings := s.readings + 1, caughtUp := 0 }
      ((clock s.readings - s.lastTimerTick) / tickMs)
    simp only [zero_add] at hdone hlast
    simp only [helapsed, if_true]
    have hwhole := Nat.div_mul_le_self (clock s.readings - s.lastTimerTick) tickMs
    have hrest := Nat.lt_div_mul_add (a := clock s.readings - s.lastTimerTick) htick
    have hpast := h.past
    generalize (clock s.readings - s.lastTimerTick) / tickMs = whole at *
    generalize LoopTimer.catchUp clock onTimerTick
      { s with readings := s.readings + 1, caughtUp := 0 } whole = caught at *
    have hreadings : clock (s.readings + 1) ≤ clock caught.1.readings := hclock hcaught.readings
    cases hthrew : caught.2 with
    | true =>
      simp only [if_true, hdone]
      -- the ticks done are not on `lastTimerTick_`, and the next call does as many again
      refine ⟨⟨?_, ?_⟩, fun hfalse => by simp at hfalse⟩
      · have hturned : Turned start tickMs (recounted s.log + ticks) (k + ticks)
            { caught.1 with caughtUp := ticks, log := caught.1.log ++ [.aborted ticks] } :=
          hcaught.turned.congr (.refl _) rfl
        rw [recounted_append, hsame]
        exact hturned
      · change caught.1.lastTimerTick ≤ clock caught.1.readings
        omega
    | false =>
      obtain rfl := hall hthrew
      simp only [Bool.false_eq_true, if_false, hdone]
      refine ⟨⟨⟨hcaught.turned.tickMs_eq, hcaught.turned.currentTick, ?_⟩, ?_⟩, fun _ => ?_⟩
      · have htime := hcaught.turned.time
        rw [hlast] at htime
        rw [hsame]
        linarith
      · change s.lastTimerTick + ticks * tickMs ≤ clock caught.1.readings
        omega
      · omega
  · simp only [helapsed, if_false]
    refine ⟨⟨hread, h.past.trans hlater⟩, fun _ => ⟨h.past, ?_⟩⟩
    omega

theorem Counted.iteration (hclock : Monotone clock) (htick : 0 < tickMs)
    (h : Counted clock start tickMs k s) (it : Iteration) :
    Counted clock start tickMs (k + s.iterationTicks clock it) (s.iteration clock it) := by
  have hhandled := h.callAll hclock it.handled.calls
  have hadvanced := (hhandled.advanceTimer hclock htick it.onTimerTick).1
  unfold LoopTimer.iteration iterationTicks
  by_cases hthrows : it.handled.throws
  · simpa only [hthrows, if_true, add_zero] using hhandled
  · simp only [hthrows, Bool.false_eq_true, if_false]
    split
    · exact hadvanced
    · exact hadvanced.callAll hclock _

theorem Counted.run (hclock : Monotone clock) (htick : 0 < tickMs)
    (h : Counted clock start tickMs k s) (its : List Iteration) :
    Counted clock start tickMs (k + s.runTicks clock its) (s.run clock its) := by
  induction its generalizing s k with
  | nil => exact h
  | cons it its ih =>
    have hrest := ih (h.iteration hclock htick it)
    rw [add_assoc] at hrest
    exact hrest

theorem counted_new (hstart : start ≤ clock 0) (numSlots tickMs : ℕ) :
    Counted clock start tickMs 0 (new numSlots tickMs start) :=
  ⟨turned_new numSlots tickMs start, hstart⟩

/-- Whole ticks on the clock, once the ticks of exceptions are taken off. -/
theorem Counted.ticks_eq (htick : 0 < tickMs) (h : Counted clock start tickMs k s) {now : ℕ}
    (hpast : s.lastTimerTick ≤ now) (hrest : now < s.lastTimerTick + tickMs)
    (hstart : start ≤ now) : k = (now - start) / tickMs + recounted s.log := by
  have htime := h.turned.time
  have hlast : (now + recounted s.log * tickMs - start) / tickMs = k := by
    rw [Nat.div_eq_iff htick]
    constructor <;> omega
  rw [← hlast, ← Nat.add_mul_div_right _ _ htick]
  congr 1
  omega

theorem start_le_clock (hclock : Monotone clock) (hstart : start ≤ clock 0) (n : ℕ) :
    start ≤ clock n := hstart.trans (hclock (Nat.zero_le n))

/-- **The ticks done when `advanceTimer` returns.** Wherever in a run it is called, less than a
tick is left to the clock it has read, and the ticks done are the whole ticks on that clock and
those that exceptions made the loop do once more. -/
theorem runTicks_advanceTimer (hclock : Monotone clock) (htick : 0 < tickMs)
    (hstart : start ≤ clock 0) (numSlots : ℕ) (its : List Iteration) (calls : List Call)
    (onTimerTick : ℕ → Callback) :
    let s := ((new numSlots tickMs start).run clock its).callAll clock calls
    let advanced := s.advanceTimer clock onTimerTick
    advanced.2 = false →
      advanced.1.lastTimerTick ≤ clock s.readings ∧
        clock s.readings < advanced.1.lastTimerTick + tickMs ∧
        (new numSlots tickMs start).runTicks clock its + s.advanceTicks clock onTimerTick =
          (clock s.readings - start) / tickMs + recounted advanced.1.log := by
  intro s advanced hreturns
  have hrun := ((counted_new hstart numSlots tickMs).run hclock htick its).callAll hclock calls
  rw [zero_add] at hrun
  obtain ⟨hcounted, hleft⟩ := hrun.advanceTimer hclock htick onTimerTick
  obtain ⟨hpast, hrest⟩ := hleft hreturns
  exact ⟨hpast, hrest, hcounted.ticks_eq htick hpast hrest (start_le_clock hclock hstart _)⟩

end LoopTimer

end XNetty.Event
