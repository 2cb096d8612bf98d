import XNetty.Event.LoopTicks

/-!
# No timer is late

A delay is rounded up to ticks and counted from the wheel's own time, which the clock has
passed, and `advanceTimer` turns the wheel up to the clock. So a timer waits for less than two
ticks beyond its delay, however long the loop was away.

## Main definitions

* `Call.Plain` — a call from outside the callbacks, of a callback that leaves the timers alone.
* `TimerEntry.DueAt` — the tick that will run an entry.
* `advanceTimer_onTime` — what holds whenever `advanceTimer` returns.
-/

namespace XNetty.Event

/-- The callback that the call passes on neither calls the wheel nor throws. -/
def Call.Plain : Call → Prop
  | .addTimer delayMs callback =>
    delayMs < 2 ^ 62 ∧ (callback = none ∨ callback = some { calls := [] })
  | .cancelTimer _ => True

/-- Only handlers, functors and `onTimerTick` call the wheel, and timer callbacks do not throw. -/
structure Iteration.Plain (it : Iteration) : Prop where
  handled : ∀ c ∈ it.handled.calls, c.Plain
  onTimerTick : ∀ n, ∀ c ∈ (it.onTimerTick n).calls, c.Plain
  returns : ∀ n, (it.onTimerTick n).throws = false
  functors : ∀ c ∈ it.functors.calls, c.Plain

/-- An entry of slot `i` that tick number `beat` will run or drop. -/
structure TimerEntry.DueAt (e : TimerEntry) (numSlots i beat : ℕ) : Prop where
  slot : e.expirationTick % numSlots = i
  beat : e.expirationTick = beat % 2 ^ 64

namespace LoopTimer

variable {clock : ℕ → ℕ} {start tickMs k : ℕ} {s : LoopTimer}

/-- The tick that an entry waits for comes less than a tick after the entry's delay is over. -/
def InTime (start tickMs beat : ℕ) (log : List TimedEvent) (id : ℕ) : Prop :=
  ∀ delayMs time tick wheelTime, .added id delayMs time tick wheelTime ∈ log →
    start + beat * tickMs < time + delayMs + tickMs

/-- After `k` ticks, which the clock has passed, every entry waits for a tick in time. -/
structure Punctual (clock : ℕ → ℕ) (start tickMs k : ℕ) (s : LoopTimer) : Prop where
  valid : s.timerWheel.Valid
  tickMs_eq : s.timerWheel.tickMs = tickMs
  currentTick : s.timerWheel.currentTick = k % 2 ^ 64
  passed : start + k * tickMs ≤ clock s.readings
  issued : ∀ id delayMs time tick wheelTime, .added id delayMs time tick wheelTime ∈ s.log →
    id < s.timerWheel.nextId
  plain : ∀ e ∈ s.timerWheel.entries, e.callback = none ∨ e.callback = some { calls := [] }
  waiting : ∀ i, ∀ e ∈ s.timerWheel.slot i, ∃ beat, k ≤ beat ∧
    e.DueAt s.timerWheel.numSlots i beat ∧ InTime start tickMs beat s.log e.id

theorem punctual_new {numSlots : ℕ} (hslots : 0 < numSlots) (hstart : start ≤ clock 0) :
    Punctual clock start tickMs 0 (new numSlots tickMs start) where
  valid := TimerWheel.new_valid hslots tickMs
  tickMs_eq := rfl
  currentTick := rfl
  passed := by simpa [new] using hstart
  issued := by simp [new]
  plain := by simp [new, TimerWheel.new, TimerWheel.entries]
  waiting := by
    intro i e he
    have hmem : e ∈ (TimerWheel.new numSlots tickMs).entries := TimerWheel.mem_slot he
    simp [TimerWheel.new, TimerWheel.entries] at hmem

/-! ### Calls -/

theorem Punctual.cancelTimer (hclock : Monotone clock) (h : Punctual clock start tickMs k s)
    (timerId : ℕ) : Punctual clock start tickMs k (s.call clock (.cancelTimer timerId)) where
  valid := h.valid.cancelTimer timerId
  tickMs_eq := h.tickMs_eq
  currentTick := h.currentTick
  passed := h.passed.trans (hclock (Nat.le_succ _))
  issued := fun id d time tick wheelTime hmem =>
    h.issued id d time tick wheelTime (by simpa [call] using hmem)
  plain := by
    intro e he
    have he : e ∈ (s.timerWheel.cancelTimer timerId).entries := he
    rw [TimerWheel.cancelTimer_entries h.valid] at he
    obtain ⟨f, hf, rfl⟩ := List.mem_map.mp he
    unfold TimerWheel.marked
    split <;> exact h.plain f hf
  waiting := by
    intro i e he
    have he : e ∈ (s.timerWheel.cancelTimer timerId).slot i := he
    rw [TimerWheel.slot_cancelTimer h.valid] at he
    obtain ⟨f, hf, rfl⟩ := List.mem_map.mp he
    obtain ⟨beat, hle, hdue, htime⟩ := h.waiting i f hf
    have hlog : (s.call clock (.cancelTimer timerId)).log = s.log := by simp [call]
    rw [hlog]
    refine ⟨beat, hle, ?_, ?_⟩
    · unfold TimerWheel.marked
      split <;> exact ⟨hdue.slot, hdue.beat⟩
    · simpa using htime

/-- The tick of a new entry, without a wrap of its rounding. -/
theorem ticksOf_mul_lt {delayMs tickMs : ℕ} (htick : 0 < tickMs)
    (hround : delayMs + tickMs - 1 < 2 ^ 64) :
    TimerWheel.ticksOf tickMs delayMs * tickMs < delayMs + tickMs := by
  rw [TimerWheel.ticksOf, Nat.mod_eq_of_lt hround]
  have hle := Nat.div_mul_le_self (delayMs + tickMs - 1) tickMs
  omega

theorem Punctual.addTimer (hclock : Monotone clock) (htick : 0 < tickMs) (hms : tickMs < 2 ^ 32)
    (h : Punctual clock start tickMs k s) {delayMs : ℕ} {callback : Option Callback}
    (hplain : (Call.addTimer delayMs callback).Plain) :
    Punctual clock start tickMs k (s.call clock (.addTimer delayMs callback)) where
  valid := h.valid.addTimer delayMs callback
  tickMs_eq := h.tickMs_eq
  currentTick := h.currentTick
  passed := h.passed.trans (hclock (Nat.le_succ _))
  issued := by
    intro id d time tick wheelTime hmem
    rcases List.mem_append.mp hmem with hmem | hmem
    · exact Nat.lt_succ_of_lt (h.issued id d time tick wheelTime hmem)
    · obtain ⟨rfl, -⟩ := TimedEvent.added.inj (List.mem_singleton.mp hmem)
      exact Nat.lt_succ_self _
  plain := by
    intro e he
    rcases List.mem_cons.mp ((TimerWheel.addTimer_entries h.valid _ _).mem_iff.mp he) with rfl | he
    · exact hplain.2
    · exact h.plain e he
  waiting := by
    intro i e he
    have he : e ∈ (s.timerWheel.addTimer delayMs callback).1.slot i := he
    -- an entry that was there is not the one just added, nor is one just added in the old log
    have hold : e ∈ s.timerWheel.slot i → ∃ beat, k ≤ beat ∧
        e.DueAt s.timerWheel.numSlots i beat ∧
        InTime start tickMs beat (s.call clock (.addTimer delayMs callback)).log e.id := by
      intro he
      obtain ⟨beat, hle, hdue, htime⟩ := h.waiting i e he
      refine ⟨beat, hle, hdue, ?_⟩
      intro d time tick wheelTime hmem
      rcases List.mem_append.mp hmem with hmem | hmem
      · exact htime d time tick wheelTime hmem
      · have hid := (TimedEvent.added.inj (List.mem_singleton.mp hmem)).1
        have hissued := h.valid.issued e (TimerWheel.mem_slot he)
        omega
    by_cases hi : i < s.timerWheel.slots.length
    · rw [TimerWheel.slot_addTimer _ _ _ hi] at he
      split at he
      · rename_i hslot
        rcases List.mem_append.mp he with he | he
        · exact hold he
        · obtain rfl := List.mem_singleton.mp he
          refine ⟨k + TimerWheel.ticksOf tickMs delayMs, Nat.le_add_right _ _, ⟨hslot, ?_⟩, ?_⟩
          · simp only [TimerWheel.newEntry, h.tickMs_eq, h.currentTick, Nat.mod_add_mod]
          · intro d time tick wheelTime hmem
            rcases List.mem_append.mp hmem with hmem | hmem
            · exact absurd (h.issued _ _ _ _ _ hmem) (lt_irrefl _)
            · obtain ⟨-, rfl, rfl, -⟩ := TimedEvent.added.inj (List.mem_singleton.mp hmem)
              have hdelay : d < 2 ^ 62 := hplain.1
              have hround := @ticksOf_mul_lt d tickMs htick (by omega)
              have hpassed := h.passed
              rw [add_mul]
              omega
      · exact hold he
    · have hslots : (s.timerWheel.addTimer delayMs callback).1.slot i = [] := by
        have hlength : i ≥ (s.timerWheel.addTimer delayMs callback).1.slots.length := by
          rw [(h.valid.addTimer delayMs callback).slots_length]
          exact h.valid.slots_length ▸ Nat.le_of_not_lt hi
        simp [TimerWheel.slot, List.getElem?_eq_none hlength]
      rw [hslots] at he
      exact absurd he List.not_mem_nil

theorem Punctual.callAll (hclock : Monotone clock) (htick : 0 < tickMs) (hms : tickMs < 2 ^ 32)
    (h : Punctual clock start tickMs k s) {cs : List Call} (hplain : ∀ c ∈ cs, c.Plain) :
    Punctual clock start tickMs k (s.callAll clock cs) := by
  induction cs generalizing s with
  | nil => exact h
  | cons c cs ih =>
    obtain ⟨hc, hcs⟩ := List.forall_mem_cons.mp hplain
    refine ih ?_ hcs
    cases c with
    | addTimer delayMs callback => exact h.addTimer hclock htick hms hc
    | cancelTimer timerId => exact h.cancelTimer hclock timerId

/-! ### Ticks -/

/-- Plain callbacks are only noted. -/
theorem runCallbacks_plain (clock : ℕ → ℕ) (s : LoopTimer) {l : List TimerEntry}
    (hplain : ∀ e ∈ l, e.callback = none ∨ e.callback = some { calls := [] }) :
    ∃ fired : List TimedEvent, (∀ e ∈ fired, ∃ id time, e = .fired id time) ∧
      s.runCallbacks clock l =
        ({ s with readings := s.readings + fired.length, log := s.log ++ fired }, false) := by
  induction l generalizing s with
  | nil => exact ⟨[], by simp, by simp [runCallbacks]⟩
  | cons entry l ih =>
    obtain ⟨hentry, hrest⟩ := List.forall_mem_cons.mp hplain
    rcases hentry with hnone | hsome
    · obtain ⟨fired, hfired, hran⟩ := ih s hrest
      exact ⟨fired, hfired, by simpa [runCallbacks, hnone] using hran⟩
    · obtain ⟨fired, hfired, hran⟩ := ih (s.fire clock entry.id) hrest
      refine ⟨.fired entry.id (clock s.readings) :: fired, ?_, ?_⟩
      · exact List.forall_mem_cons.mpr ⟨⟨_, _, rfl⟩, hfired⟩
      · simpa [runCallbacks, hsome, callAll, fire, add_assoc, add_comm 1] using hran

theorem Punctual.tick_eq (h : Punctual clock start tickMs k s) :
    ∃ fired : List TimedEvent, (∀ e ∈ fired, ∃ id time, e = .fired id time) ∧
      s.tick clock = ({ s with
        timerWheel := s.timerWheel.swapped.advance
        caughtUp := s.caughtUp + 1
        readings := s.readings + fired.length
        log := s.log ++ fired }, false) := by
  have hplain : ∀ e ∈ s.timerWheel.toFire, e.callback = none ∨ e.callback = some { calls := [] } :=
    fun e he => h.plain e (TimerWheel.mem_slot (List.mem_of_mem_filter he))
  obtain ⟨fired, hfired, hran⟩ :=
    runCallbacks_plain clock { s with timerWheel := s.timerWheel.swapped } hplain
  exact ⟨fired, hfired, by simp [tick, hran]⟩

/-- **A tick leaves no entry that waits for it**: the entry is in the slot of the tick, which
keeps only those of later ticks. -/
theorem Punctual.later (h : Punctual clock start tickMs k s) {i : ℕ} {e : TimerEntry}
    (he : e ∈ s.timerWheel.swapped.slot i) :
    ∃ beat, k + 1 ≤ beat ∧ e.DueAt s.timerWheel.numSlots i beat ∧
      InTime start tickMs beat s.log e.id := by
  rw [TimerWheel.slot_swapped h.valid] at he
  have hne : e.expirationTick ≠ s.timerWheel.currentTick ∧ e ∈ s.timerWheel.slot i := by
    by_cases hi : i = s.timerWheel.currentSlot
    · rw [if_pos hi] at he
      obtain ⟨hmem, hkeep⟩ := List.mem_filter.mp he
      simp only [Bool.and_eq_true, decide_eq_true_eq] at hkeep
      exact ⟨hkeep.2.ne', hi ▸ hmem⟩
    · rw [if_neg hi] at he
      obtain ⟨beat, -, hdue, -⟩ := h.waiting i e he
      exact ⟨fun heq => hi (by rw [← hdue.slot, heq]; rfl), he⟩
  obtain ⟨beat, hle, hdue, htime⟩ := h.waiting i e hne.2
  refine ⟨beat, Nat.lt_of_le_of_ne hle ?_, hdue, htime⟩
  rintro rfl
  exact hne.1 (hdue.beat.trans h.currentTick.symm)

theorem Punctual.tick (hclock : Monotone clock) (h : Punctual clock start tickMs k s)
    (hnow : start + (k + 1) * tickMs ≤ clock s.readings) :
    Punctual clock start tickMs (k + 1) (s.tick clock).1 ∧ (s.tick clock).2 = false := by
  obtain ⟨fired, hfired, htick⟩ := h.tick_eq
  have hadded : ∀ {id delayMs time tick wheelTime},
      .added id delayMs time tick wheelTime ∈ s.log ++ fired →
        .added id delayMs time tick wheelTime ∈ s.log := by
    intro id delayMs time tick wheelTime hmem
    rcases List.mem_append.mp hmem with hmem | hmem
    · exact hmem
    · obtain ⟨_, _, heq⟩ := hfired _ hmem
      cases heq
  rw [htick]
  refine ⟨⟨h.valid.swapped.advance, h.tickMs_eq, ?_, ?_, ?_, ?_, ?_⟩, rfl⟩
  · change (s.timerWheel.currentTick + 1) % 2 ^ 64 = _
    rw [h.currentTick, Nat.mod_add_mod]
  · exact hnow.trans (hclock (Nat.le_add_right _ _))
  · intro id d time tick wheelTime hmem
    exact h.issued id d time tick wheelTime (hadded hmem)
  · intro e he
    exact h.plain e (s.timerWheel.swapped_entries.subset he)
  · intro i e he
    obtain ⟨beat, hle, hdue, htime⟩ := h.later he
    exact ⟨beat, hle, hdue, fun d time tick wheelTime hmem => htime d time tick wheelTime
      (hadded hmem)⟩

/-- The catch-up loop. The clock has passed all the ticks that remain. -/
theorem Punctual.catchUp (hclock : Monotone clock) (htick : 0 < tickMs) (hms : tickMs < 2 ^ 32)
    {onTimerTick : ℕ → Callback} (hplain : ∀ n, ∀ c ∈ (onTimerTick n).calls, c.Plain)
    (hreturns : ∀ n, (onTimerTick n).throws = false) (remaining : ℕ)
    (h : Punctual clock start tickMs k s)
    (hnow : start + (k + remaining) * tickMs ≤ clock s.readings) :
    Punctual clock start tickMs (k + remaining) (s.catchUp clock onTimerTick remaining).1 ∧
      (s.catchUp clock onTimerTick remaining).2 = false := by
  induction remaining generalizing s k with
  | zero => exact ⟨h, rfl⟩
  | succ remaining ih =>
    have hfirst : start + (k + 1) * tickMs ≤ clock s.readings := by
      refine le_trans ?_ hnow
      gcongr
      omega
    obtain ⟨hticked, hthrew⟩ := h.tick hclock hfirst
    have hcalled := hticked.callAll hclock htick hms (hplain s.caughtUp)
    have hlater := (later_tick clock s).trans
      (later_callAll clock (s.tick clock).1 (onTimerTick s.caughtUp).calls)
    have hrest : start + (k + 1 + remaining) * tickMs ≤
        clock ((s.tick clock).1.callAll clock (onTimerTick s.caughtUp).calls).readings := by
      refine le_trans (le_of_eq ?_) (hnow.trans (hclock hlater.readings))
      ring
    have hdone := ih hcalled hrest
    unfold LoopTimer.catchUp
    simp only [hthrew, hreturns s.caughtUp, Bool.false_eq_true, if_false]
    rw [add_assoc, add_comm 1 remaining] at hdone
    exact hdone

/-! ### Runs -/

/-- Between what the loop does: `lastTimerTick_` has all ticks done, as no exception came. -/
structure Steady (clock : ℕ → ℕ) (start tickMs k : ℕ) (s : LoopTimer) : Prop where
  punctual : Punctual clock start tickMs k s
  time : s.lastTimerTick = start + k * tickMs
  recounted : recounted s.log = 0

theorem Steady.callAll (hclock : Monotone clock) (htick : 0 < tickMs) (hms : tickMs < 2 ^ 32)
    (h : Steady clock start tickMs k s) {cs : List Call} (hplain : ∀ c ∈ cs, c.Plain) :
    Steady clock start tickMs k (s.callAll clock cs) where
  punctual := h.punctual.callAll hclock htick hms hplain
  time := (later_callAll clock s cs).lastTimerTick.trans h.time
  recounted := (recounted_callAll clock s cs).trans h.recounted

/-- Reading the clock. -/
theorem Steady.readClock (hclock : Monotone clock) (h : Steady clock start tickMs k s) :
    Steady clock start tickMs k { s with readings := s.readings + 1, caughtUp := 0 } :=
  { h with
    punctual := { h.punctual with passed := h.punctual.passed.trans (hclock (Nat.le_succ _)) } }

theorem Steady.advanceTimer (hclock : Monotone clock) (htick : 0 < tickMs) (hms : tickMs < 2 ^ 32)
    (h : Steady clock start tickMs k s) {it : Iteration} (hit : it.Plain) :
    (∃ k', Steady clock start tickMs k' (s.advanceTimer clock it.onTimerTick).1) ∧
      (s.advanceTimer clock it.onTimerTick).2 = false := by
  have hread := h.readClock hclock
  unfold LoopTimer.advanceTimer
  dsimp only
  rw [h.punctual.tickMs_eq]
  by_cases helapsed : tickMs ≤ clock s.readings - s.lastTimerTick
  · simp only [helapsed, if_true]
    have hnow : start + (k + (clock s.readings - s.lastTimerTick) / tickMs) * tickMs ≤
        clock (s.readings + 1) := by
      have hwhole := Nat.div_mul_le_self (clock s.readings - s.lastTimerTick) tickMs
      have hlater : clock s.readings ≤ clock (s.readings + 1) := hclock (Nat.le_succ _)
      have htime := h.time
      rw [add_mul]
      omega
    obtain ⟨hpunctual, hreturns⟩ := hread.punctual.catchUp hclock htick hms hit.onTimerTick
      hit.returns _ hnow
    simp only [hreturns, Bool.false_eq_true, if_false, and_true]
    refine ⟨_, ⟨{ hpunctual with }, ?_, (recounted_catchUp _ _ _ _).trans h.recounted⟩⟩
    change s.lastTimerTick + (clock s.readings - s.lastTimerTick) / tickMs * tickMs = _
    rw [h.time]
    ring
  · simp only [helapsed, if_false, and_true]
    exact ⟨k, hread⟩

theorem Steady.iteration (hclock : Monotone clock) (htick : 0 < tickMs) (hms : tickMs < 2 ^ 32)
    (h : Steady clock start tickMs k s) {it : Iteration} (hit : it.Plain) :
    ∃ k', Steady clock start tickMs k' (s.iteration clock it) := by
  have hhandled := h.callAll hclock htick hms hit.handled
  obtain ⟨⟨k', hadvanced⟩, hreturns⟩ := hhandled.advanceTimer hclock htick hms hit
  unfold LoopTimer.iteration
  dsimp only
  split
  · exact ⟨k, hhandled⟩
  · simp only [hreturns, Bool.false_eq_true, if_false]
    exact ⟨k', hadvanced.callAll hclock htick hms hit.functors⟩

theorem Steady.run (hclock : Monotone clock) (htick : 0 < tickMs) (hms : tickMs < 2 ^ 32)
    (h : Steady clock start tickMs k s) {its : List Iteration} (hits : ∀ it ∈ its, it.Plain) :
    ∃ k', Steady clock start tickMs k' (s.run clock its) := by
  induction its generalizing s k with
  | nil => exact ⟨k, h⟩
  | cons it its ih =>
    obtain ⟨hit, hits⟩ := List.forall_mem_cons.mp hits
    obtain ⟨k', hdone⟩ := h.iteration hclock htick hms hit
    exact ih hdone hits

/-- The next tick comes in less than a tick, and an entry waits for it or for one after it. -/
theorem Steady.deadline (h : Steady clock start tickMs k s) {now : ℕ}
    (hrest : now < s.lastTimerTick + tickMs) {e : TimerEntry} (he : e ∈ s.timerWheel.entries)
    {delayMs time tick wheelTime : ℕ} (hadded : .added e.id delayMs time tick wheelTime ∈ s.log) :
    now < time + delayMs + 2 * tickMs := by
  obtain ⟨slot, hslot, hmem⟩ := List.mem_flatten.mp he
  obtain ⟨i, hi, rfl⟩ := List.getElem_of_mem hslot
  have hentry : e ∈ s.timerWheel.slot i := by simpa [TimerWheel.slot, hi] using hmem
  obtain ⟨beat, hle, -, htime⟩ := h.punctual.waiting i e hentry
  have hbeat := htime delayMs time tick wheelTime hadded
  have hk : k * tickMs ≤ beat * tickMs := Nat.mul_le_mul_right _ hle
  have hlast := h.time
  omega

/-- **No timer is late.** On any clock, in a run whose calls of `runAfter` and `cancelTimer` come
from outside the timer callbacks: whenever `advanceTimer` returns, less than a tick is left to
the clock it has read, the ticks done are the whole ticks on that clock, and no entry waits that
was added two ticks and its delay ago. -/
theorem advanceTimer_onTime (clock : ℕ → ℕ) (hclock : Monotone clock) {numSlots tickMs start : ℕ}
    (hslots : 0 < numSlots) (htick : 0 < tickMs) (hms : tickMs < 2 ^ 32) (hstart : start ≤ clock 0)
    (its : List Iteration) (it : Iteration) (hits : ∀ it ∈ its, it.Plain) (hit : it.Plain) :
    let s := ((new numSlots tickMs start).run clock its).callAll clock it.handled.calls
    let now := clock s.readings
    let advanced := (s.advanceTimer clock it.onTimerTick).1
    (advanced.lastTimerTick ≤ now ∧ now < advanced.lastTimerTick + tickMs) ∧
      (new numSlots tickMs start).runTicks clock its + s.advanceTicks clock it.onTimerTick =
        (now - start) / tickMs ∧
      ∀ e ∈ advanced.timerWheel.entries, e.canceled = false →
        ∀ delayMs time tick wheelTime, .added e.id delayMs time tick wheelTime ∈ advanced.log →
          ¬ time + delayMs + 2 * tickMs ≤ now := by
  intro s now advanced
  have hnew : Steady clock start tickMs 0 (new numSlots tickMs start) :=
    ⟨punctual_new hslots hstart, by simp [new], rfl⟩
  obtain ⟨k, hrun⟩ := hnew.run hclock htick hms hits
  obtain ⟨⟨k', hadvanced⟩, hreturns⟩ :=
    (hrun.callAll hclock htick hms hit.handled).advanceTimer hclock htick hms hit
  obtain ⟨hpast, hrest, hticks⟩ := runTicks_advanceTimer hclock htick hstart numSlots its
    it.handled.calls it.onTimerTick hreturns
  refine ⟨⟨hpast, hrest⟩, ?_, ?_⟩
  · rw [hticks, hadvanced.recounted, add_zero]
  · intro e he _ delayMs time tick wheelTime hadded
    exact Nat.not_le_of_lt (hadvanced.deadline hrest he hadded)

/-- A handler sets a timer of one tick, and then two ticks and a half pass. -/
def oneTimer : List Iteration :=
  [{ handled := { calls := [.addTimer 1000 (some { calls := [] })] } }]

theorem oneTimer_plain : ∀ it ∈ oneTimer, it.Plain := by
  intro it hit
  obtain rfl := List.mem_singleton.mp hit
  constructor <;> simp [Call.Plain]

theorem advanceTimer_onTime_oneTimer :
    (new 256 1000 0).runTicks (fun n => n * 1250) oneTimer +
      (((new 256 1000 0).run (fun n => n * 1250) oneTimer).callAll (fun n => n * 1250)
        []).advanceTicks (fun n => n * 1250) (fun _ => { calls := [] }) = 2500 / 1000 := by
  have hclock : Monotone fun n : ℕ => n * 1250 := fun m n hmn => Nat.mul_le_mul_right _ hmn
  exact (advanceTimer_onTime _ hclock (by decide) (by decide) (by decide) (by decide) oneTimer {}
    oneTimer_plain (by constructor <;> simp)).2.1

end LoopTimer

end XNetty.Event
