import XNetty.Event.LoopTimer

/-!
# No timer is early

A delay is counted in ticks from the wheel's own time, which is behind the clock while a handler
runs. A timer is never early as long as the wheel is not too far behind whenever one is set,
and does not forget ticks it has done.

## Main definitions

* `TimedEvent.Timely` — a `runAfter` that the wheel is not too far behind for.
* `Paced` — no entry of the wheel will be run too early.
* `run_neverEarly` — no callback runs before its delay is over.
-/

namespace XNetty.Event

/-- The wheel is not so far behind the clock that it would come to the expiry tick too soon,
the tick is not cut to 64 bits, and no exception makes it forget ticks it has done. -/
def TimedEvent.Timely (tickMs : ℕ) : TimedEvent → Prop
  | .added _ delayMs time tick wheelTime =>
    delayMs = 0 ∨ tick + TimerWheel.ticksOf tickMs delayMs < 2 ^ 64 ∧
      time + delayMs ≤ wheelTime + (TimerWheel.ticksOf tickMs delayMs + 1) * tickMs
  | .fired _ _ => True
  | .aborted caughtUp => caughtUp = 0

instance (tickMs : ℕ) (e : TimedEvent) : Decidable (e.Timely tickMs) :=
  match e with
  | .added _ _ _ _ _ => inferInstanceAs (Decidable (_ ∨ _ ∧ _))
  | .fired _ _ => inferInstanceAs (Decidable True)
  | .aborted caughtUp => inferInstanceAs (Decidable (caughtUp = 0))

/-- No callback has run before its delay was over. -/
def NeverEarly (log : List TimedEvent) : Prop :=
  ∀ id delayMs time tick wheelTime t, .added id delayMs time tick wheelTime ∈ log →
    .fired id t ∈ log → time + delayMs ≤ t

namespace LoopTimer

variable {clock : ℕ → ℕ}

/-! ### What holds of every run -/

/-- Whatever tick from number `k` on runs the entry, `deadline` will have passed: tick number
`n` is run when the clock is at `start + (n + 1) * tickMs` or later. -/
def DueBy (start tickMs k : ℕ) (e : TimerEntry) (deadline : ℕ) : Prop :=
  ∀ n, k ≤ n → e.expirationTick ≤ n % 2 ^ 64 → deadline ≤ start + (n + 1) * tickMs

/-- The loop has done `k` ticks since `start`, and no entry will be run too early. -/
structure Paced (clock : ℕ → ℕ) (start tickMs k : ℕ) (s : LoopTimer) : Prop where
  valid : s.timerWheel.Valid
  tickMs_eq : s.timerWheel.tickMs = tickMs
  currentTick : s.timerWheel.currentTick = k % 2 ^ 64
  wheelTime : s.wheelTime = start + k * tickMs
  past : ∀ id delayMs time tick wheelTime, .added id delayMs time tick wheelTime ∈ s.log →
    id < s.timerWheel.nextId ∧ time ≤ clock s.readings
  firedIssued : ∀ id t, .fired id t ∈ s.log → id < s.timerWheel.nextId
  due : ∀ e ∈ s.timerWheel.entries, ∀ delayMs time tick wheelTime,
    .added e.id delayMs time tick wheelTime ∈ s.log → delayMs ≠ 0 →
      DueBy start tickMs k e (time + delayMs)
  neverEarly : NeverEarly s.log

/-- The delay of the entry's timer is over. -/
def Ready (clock : ℕ → ℕ) (s : LoopTimer) (e : TimerEntry) : Prop :=
  e.id < s.timerWheel.nextId ∧ ∀ delayMs time tick wheelTime,
    .added e.id delayMs time tick wheelTime ∈ s.log → time + delayMs ≤ clock s.readings

variable {start tickMs k : ℕ} {s : LoopTimer}

theorem paced_new {numSlots : ℕ} (hslots : 0 < numSlots) (tickMs start : ℕ) :
    Paced clock start tickMs 0 (new numSlots tickMs start) where
  valid := TimerWheel.new_valid hslots tickMs
  tickMs_eq := rfl
  currentTick := rfl
  wheelTime := by simp [LoopTimer.wheelTime, new]
  past := by simp [new]
  firedIssued := by simp [new]
  due := by simp [new]
  neverEarly := by simp [NeverEarly, new]

/-- An entry that `addTimer` puts in a slot while the wheel is not too far behind. -/
theorem dueBy_newEntry (h : Paced clock start tickMs k s) {delayMs : ℕ} (hdelay : delayMs ≠ 0)
    (callback : Option Callback)
    (htimely : (TimedEvent.added s.timerWheel.nextId delayMs (clock s.readings)
      s.timerWheel.currentTick s.wheelTime).Timely tickMs) :
    DueBy start tickMs k (s.timerWheel.newEntry delayMs callback) (clock s.readings + delayMs) := by
  obtain ⟨hwrap, hlate⟩ := htimely.resolve_left hdelay
  intro n hn hexp
  have hticks : k + TimerWheel.ticksOf tickMs delayMs ≤ n := by
    simp only [TimerWheel.newEntry, h.tickMs_eq] at hexp
    rw [Nat.mod_eq_of_lt hwrap, h.currentTick] at hexp
    rw [h.currentTick] at hwrap
    omega
  rw [h.wheelTime] at hlate
  calc clock s.readings + delayMs
      ≤ start + k * tickMs + (TimerWheel.ticksOf tickMs delayMs + 1) * tickMs := hlate
    _ = start + (k + TimerWheel.ticksOf tickMs delayMs + 1) * tickMs := by ring
    _ ≤ start + (n + 1) * tickMs := by gcongr

/-- A call that leaves the timers as they are: each entry is one that was there. -/
theorem Paced.cancelTimer (hclock : Monotone clock) (h : Paced clock start tickMs k s)
    (timerId : ℕ) : Paced clock start tickMs k (s.call clock (.cancelTimer timerId)) where
  valid := h.valid.cancelTimer timerId
  tickMs_eq := h.tickMs_eq
  currentTick := h.currentTick
  wheelTime := h.wheelTime
  past := by
    intro id delayMs time tick wheelTime hmem
    obtain ⟨hid, htime⟩ := h.past id delayMs time tick wheelTime (by simpa [call] using hmem)
    exact ⟨hid, htime.trans (hclock (Nat.le_succ _))⟩
  firedIssued := fun id t hmem => h.firedIssued id t (by simpa [call] using hmem)
  due := by
    intro e he delayMs time tick wheelTime hmem
    have he : e ∈ (s.timerWheel.cancelTimer timerId).entries := he
    rw [TimerWheel.cancelTimer_entries h.valid] at he
    obtain ⟨f, hf, rfl⟩ := List.mem_map.mp he
    have hdue := h.due f hf delayMs time tick wheelTime (by simpa [call] using hmem)
    unfold TimerWheel.marked
    split <;> exact hdue
  neverEarly := by simpa [call] using h.neverEarly

theorem Paced.addTimer (hclock : Monotone clock) (h : Paced clock start tickMs k s)
    (delayMs : ℕ) (callback : Option Callback)
    (htimely : (TimedEvent.added s.timerWheel.nextId delayMs (clock s.readings)
      s.timerWheel.currentTick s.wheelTime).Timely tickMs) :
    Paced clock start tickMs k (s.call clock (.addTimer delayMs callback)) where
  valid := h.valid.addTimer delayMs callback
  tickMs_eq := h.tickMs_eq
  currentTick := h.currentTick
  wheelTime := h.wheelTime
  past := by
    intro id d time tick wheelTime hmem
    rcases List.mem_append.mp hmem with hmem | hmem
    · obtain ⟨hid, htime⟩ := h.past id d time tick wheelTime hmem
      exact ⟨Nat.lt_succ_of_lt hid, htime.trans (hclock (Nat.le_succ _))⟩
    · obtain ⟨rfl, -, rfl, -⟩ := TimedEvent.added.inj (List.mem_singleton.mp hmem)
      exact ⟨Nat.lt_succ_self _, hclock (Nat.le_succ _)⟩
  firedIssued := by
    intro id t hmem
    have hmem : .fired id t ∈ s.log := by simpa [call] using hmem
    exact Nat.lt_succ_of_lt (h.firedIssued id t hmem)
  due := by
    intro e he d time tick wheelTime hmem hd
    rcases List.mem_cons.mp ((TimerWheel.addTimer_entries h.valid _ _).mem_iff.mp he) with rfl | he
    · rcases List.mem_append.mp hmem with hmem | hmem
      · exact absurd (h.past _ _ _ _ _ hmem).1 (lt_irrefl _)
      · obtain ⟨-, rfl, rfl, -⟩ := TimedEvent.added.inj (List.mem_singleton.mp hmem)
        exact dueBy_newEntry h hd callback htimely
    · rcases List.mem_append.mp hmem with hmem | hmem
      · exact h.due e he d time tick wheelTime hmem hd
      · have hid := (TimedEvent.added.inj (List.mem_singleton.mp hmem)).1
        exact absurd (h.valid.issued e he) (by omega)
  neverEarly := by
    intro id d time tick wheelTime t hadded hfired
    have hfired : .fired id t ∈ s.log := by simpa [call] using hfired
    rcases List.mem_append.mp hadded with hadded | hadded
    · exact h.neverEarly id d time tick wheelTime t hadded hfired
    · have hid := (TimedEvent.added.inj (List.mem_singleton.mp hadded)).1
      exact absurd (h.firedIssued id t hfired) (by omega)

theorem Paced.call (hclock : Monotone clock) (h : Paced clock start tickMs k s) (c : Call)
    (htimely : ∀ e ∈ (s.call clock c).log, e.Timely tickMs) :
    Paced clock start tickMs k (s.call clock c) := by
  cases c with
  | addTimer delayMs callback =>
    exact h.addTimer hclock delayMs callback (htimely _ (by simp [LoopTimer.call]))
  | cancelTimer timerId => exact h.cancelTimer hclock timerId

/-- A timer whose delay is over stays one: new timers have ids of their own. -/
theorem Ready.call (hclock : Monotone clock) {e : TimerEntry} (h : Ready clock s e) (c : Call) :
    Ready clock (s.call clock c) e := by
  obtain ⟨hid, hready⟩ := h
  have hlater : clock s.readings ≤ clock (s.readings + 1) := hclock (Nat.le_succ _)
  cases c with
  | addTimer delayMs callback =>
    refine ⟨Nat.lt_succ_of_lt hid, ?_⟩
    intro d time tick wheelTime hmem
    rcases List.mem_append.mp hmem with hmem | hmem
    · exact (hready d time tick wheelTime hmem).trans hlater
    · have heq := (TimedEvent.added.inj (List.mem_singleton.mp hmem)).1
      exact absurd hid (by omega)
  | cancelTimer timerId =>
    refine ⟨hid, ?_⟩
    intro d time tick wheelTime hmem
    exact (hready d time tick wheelTime (by simpa [LoopTimer.call] using hmem)).trans hlater

theorem Paced.callAll (hclock : Monotone clock) (h : Paced clock start tickMs k s)
    (cs : List Call) (htimely : ∀ e ∈ (s.callAll clock cs).log, e.Timely tickMs) :
    Paced clock start tickMs k (s.callAll clock cs) := by
  induction cs generalizing s with
  | nil => exact h
  | cons c cs ih =>
    have hlater := later_callAll clock (s.call clock c) cs
    exact ih (h.call hclock c fun e he => htimely e (hlater.log he)) htimely

theorem Ready.callAll (hclock : Monotone clock) {e : TimerEntry} (h : Ready clock s e)
    (cs : List Call) : Ready clock (s.callAll clock cs) e := by
  induction cs generalizing s with
  | nil => exact h
  | cons c cs ih => exact ih (h.call hclock c)

theorem Ready.fire (hclock : Monotone clock) {e : TimerEntry} (h : Ready clock s e) (id : ℕ) :
    Ready clock (s.fire clock id) e := by
  refine ⟨h.1, ?_⟩
  intro d time tick wheelTime hmem
  have hmem : .added e.id d time tick wheelTime ∈ s.log := by simpa [LoopTimer.fire] using hmem
  exact (h.2 d time tick wheelTime hmem).trans (hclock (Nat.le_succ _))

theorem Paced.fire (hclock : Monotone clock) (h : Paced clock start tickMs k s) {e : TimerEntry}
    (hready : Ready clock s e) : Paced clock start tickMs k (s.fire clock e.id) where
  valid := h.valid
  tickMs_eq := h.tickMs_eq
  currentTick := h.currentTick
  wheelTime := h.wheelTime
  past := by
    intro id d time tick wheelTime hmem
    obtain ⟨hid, htime⟩ := h.past id d time tick wheelTime (by simpa [LoopTimer.fire] using hmem)
    exact ⟨hid, htime.trans (hclock (Nat.le_succ _))⟩
  firedIssued := by
    intro id t hmem
    rcases List.mem_append.mp hmem with hmem | hmem
    · exact h.firedIssued id t hmem
    · obtain ⟨rfl, -⟩ := TimedEvent.fired.inj (List.mem_singleton.mp hmem)
      exact hready.1
  due := fun f hf d time tick wheelTime hmem =>
    h.due f hf d time tick wheelTime (by simpa [LoopTimer.fire] using hmem)
  neverEarly := by
    intro id d time tick wheelTime t hadded hfired
    have hadded : .added id d time tick wheelTime ∈ s.log := by
      simpa [LoopTimer.fire] using hadded
    rcases List.mem_append.mp hfired with hfired | hfired
    · exact h.neverEarly id d time tick wheelTime t hadded hfired
    · obtain ⟨rfl, rfl⟩ := TimedEvent.fired.inj (List.mem_singleton.mp hfired)
      exact hready.2 d time tick wheelTime hadded

/-! ### A tick -/

/-- The loop over entries whose delays are over. -/
theorem Paced.runCallbacks (hclock : Monotone clock) (h : Paced clock start tickMs k s)
    {l : List TimerEntry} (hready : ∀ e ∈ l, Ready clock s e)
    (htimely : ∀ e ∈ (s.runCallbacks clock l).1.log, e.Timely tickMs) :
    Paced clock start tickMs k (s.runCallbacks clock l).1 := by
  induction l generalizing s with
  | nil => exact h
  | cons entry l ih =>
    unfold LoopTimer.runCallbacks at htimely ⊢
    have hrest : ∀ e ∈ l, Ready clock s e := fun e he => hready e (List.mem_cons_of_mem _ he)
    cases hcallback : entry.callback with
    | none =>
      rw [hcallback] at htimely
      exact ih h hrest htimely
    | some callback =>
      rw [hcallback] at htimely
      have hfired := h.fire hclock (hready entry List.mem_cons_self)
      by_cases hthrows : callback.throws
      · simp only [hthrows, if_true] at htimely ⊢
        exact hfired.callAll hclock _ htimely
      · simp only [hthrows] at htimely ⊢
        refine ih (hfired.callAll hclock _ fun e he => ?_) (fun e he => ?_) htimely
        · exact htimely e ((later_runCallbacks clock _ _).log he)
        · exact ((hrest e he).fire hclock entry.id).callAll hclock _

/-- What does not touch the timers: the wheel's due entries are taken out of their slot. -/
theorem Paced.swapped (h : Paced clock start tickMs k s) :
    Paced clock start tickMs k { s with timerWheel := s.timerWheel.swapped } :=
  { h with
    valid := h.valid.swapped
    due := fun e he => h.due e (s.timerWheel.swapped_entries.subset he) }

/-- When tick number `k` comes, the clock has passed what is due then. -/
theorem Paced.ready (h : Paced clock start tickMs k s)
    (hnow : start + (k + 1) * tickMs ≤ clock s.readings) {e : TimerEntry}
    (he : e ∈ s.timerWheel.toFire) : Ready clock s e := by
  obtain ⟨hslot, hdue⟩ := List.mem_filter.mp he
  have hentry := TimerWheel.mem_slot hslot
  have hexp : e.expirationTick ≤ k % 2 ^ 64 := by
    simp only [Bool.and_eq_true, decide_eq_true_eq] at hdue
    exact h.currentTick ▸ hdue.2
  refine ⟨h.valid.issued e hentry, ?_⟩
  intro d time tick wheelTime hmem
  by_cases hd : d = 0
  · subst hd
    exact (h.past _ _ _ _ _ hmem).2
  · exact (h.due e hentry d time tick wheelTime hmem hd k le_rfl hexp).trans hnow

/-- A tick that no exception leaves is done; another one leaves the wheel where it is. -/
theorem Paced.tick (hclock : Monotone clock) (h : Paced clock start tickMs k s)
    (hnow : start + (k + 1) * tickMs ≤ clock s.readings)
    (htimely : ∀ e ∈ (s.tick clock).1.log, e.Timely tickMs) :
    Paced clock start tickMs (if (s.tick clock).2 then k else k + 1) (s.tick clock).1 := by
  have hready : ∀ e ∈ s.timerWheel.toFire,
      Ready clock { s with timerWheel := s.timerWheel.swapped } e :=
    fun e he => h.ready hnow he
  unfold LoopTimer.tick at htimely ⊢
  by_cases hthrew : (({ s with timerWheel := s.timerWheel.swapped } : LoopTimer).runCallbacks clock
      s.timerWheel.toFire).2
  · simp only [hthrew, if_true] at htimely ⊢
    exact h.swapped.runCallbacks hclock hready htimely
  · simp only [hthrew] at htimely ⊢
    have hran := h.swapped.runCallbacks hclock hready htimely
    refine { hran with
      valid := hran.valid.advance
      currentTick := ?_
      wheelTime := ?_
      due := fun e he d time tick wheelTime hmem hd n hn => ?_ }
    · simp only [TimerWheel.advance, hran.currentTick]
      exact Nat.mod_add_mod k _ 1
    · have htime := hran.wheelTime
      have htick := hran.tickMs_eq
      simp only [LoopTimer.wheelTime, TimerWheel.advance] at htime ⊢
      rw [htick] at htime ⊢
      simp only [Bool.false_eq_true, if_false]
      linarith
    · simp only [Bool.false_eq_true, if_false] at hn
      exact hran.due e he d time tick wheelTime hmem hd n (by omega)

/-! ### Catching up -/

theorem log_relation (clock : ℕ → ℕ) : LoopRelation clock fun s s' => s.log ⊆ s'.log where
  refl s := List.Subset.refl s.log
  trans := List.Subset.trans
  callAll s cs := (later_callAll clock s cs).log
  tick s := (later_tick clock s).log
  started s := List.Subset.refl s.log
  aborted s := List.subset_append_left s.log _
  finished s _ := List.Subset.refl s.log

/-- The catch-up loop. The clock has passed all the ticks that remain. -/
theorem Paced.catchUp (hclock : Monotone clock) (onTimerTick : ℕ → Callback) (remaining : ℕ)
    (h : Paced clock start tickMs k s)
    (hnow : s.lastTimerTick + (s.caughtUp + remaining) * tickMs ≤ clock s.readings)
    (htimely : ∀ e ∈ (s.catchUp clock onTimerTick remaining).1.log, e.Timely tickMs) :
    (∃ k', Paced clock start tickMs k' (s.catchUp clock onTimerTick remaining).1) ∧
      (s.catchUp clock onTimerTick remaining).1.lastTimerTick = s.lastTimerTick ∧
      ((s.catchUp clock onTimerTick remaining).2 = false →
        (s.catchUp clock onTimerTick remaining).1.caughtUp = s.caughtUp + remaining) := by
  induction remaining generalizing s k with
  | zero => exact ⟨⟨k, h⟩, rfl, fun _ => rfl⟩
  | succ remaining ih =>
    have htick := later_tick clock s
    have hready : start + (k + 1) * tickMs ≤ clock s.readings := by
      have htime := h.wheelTime
      rw [LoopTimer.wheelTime, h.tickMs_eq] at htime
      have hle : s.lastTimerTick + (s.caughtUp + 1) * tickMs ≤
          s.lastTimerTick + (s.caughtUp + (remaining + 1)) * tickMs := by gcongr; omega
      linarith
    unfold LoopTimer.catchUp at htimely ⊢
    by_cases hthrew : (s.tick clock).2
    · simp only [hthrew, if_true] at htimely ⊢
      exact ⟨⟨_, h.tick hclock hready htimely⟩, htick.lastTimerTick,
        fun hfalse => by simp at hfalse⟩
    · simp only [hthrew] at htimely ⊢
      generalize onTimerTick s.caughtUp = callback at htimely ⊢
      have hcalled := later_callAll clock (s.tick clock).1 callback.calls
      have hlater := htick.trans hcalled
      simp only [hthrew, Bool.false_eq_true, if_false] at hlater
      have hpaced : (∀ e ∈ ((s.tick clock).1.callAll clock callback.calls).log,
          e.Timely tickMs) →
          Paced clock start tickMs (k + 1) ((s.tick clock).1.callAll clock callback.calls) := by
        intro htimely
        have hticked := h.tick hclock hready fun e he => htimely e (hcalled.log he)
        simp only [hthrew, Bool.false_eq_true, if_false] at hticked
        exact hticked.callAll hclock _ htimely
      by_cases hthrows : callback.throws
      · simp only [hthrows, if_true] at htimely ⊢
        exact ⟨⟨_, hpaced htimely⟩, hlater.lastTimerTick, fun hfalse => by simp at hfalse⟩
      · simp only [hthrows, Bool.false_eq_true, if_false] at htimely ⊢
        have hnext : ((s.tick clock).1.callAll clock callback.calls).lastTimerTick +
            (((s.tick clock).1.callAll clock callback.calls).caughtUp + remaining) * tickMs ≤
              clock ((s.tick clock).1.callAll clock callback.calls).readings := by
          rw [hlater.lastTimerTick, hlater.caughtUp]
          refine le_trans (le_of_eq ?_) (hnow.trans (hclock hlater.readings))
          ring
        obtain ⟨hk, hlast, hcaught⟩ :=
          ih (hpaced fun e he => htimely e ((log_relation clock).catchUp _ _ _ he)) hnext htimely
        refine ⟨hk, hlast.trans hlater.lastTimerTick, ?_⟩
        intro hfalse
        rw [hcaught hfalse, hlater.caughtUp]
        ring

/-! ### Runs -/

/-- Between what the loop does, its catch-up loop is not under way. -/
structure Resting (clock : ℕ → ℕ) (start tickMs : ℕ) (s : LoopTimer) : Prop where
  paced : ∃ k, Paced clock start tickMs k s
  caughtUp : s.caughtUp = 0

theorem Resting.callAll (hclock : Monotone clock) (h : Resting clock start tickMs s)
    (cs : List Call) (htimely : ∀ e ∈ (s.callAll clock cs).log, e.Timely tickMs) :
    Resting clock start tickMs (s.callAll clock cs) := by
  obtain ⟨k, hpaced⟩ := h.paced
  exact ⟨⟨k, hpaced.callAll hclock cs htimely⟩,
    (later_callAll clock s cs).caughtUp.trans h.caughtUp⟩

/-- Reading the clock changes nothing but the time. -/
theorem Paced.readClock (hclock : Monotone clock) (h : Paced clock start tickMs k s)
    (hcaught : s.caughtUp = 0) :
    Paced clock start tickMs k { s with readings := s.readings + 1, caughtUp := 0 } :=
  { h with
    wheelTime := by
      have htime := h.wheelTime
      rw [LoopTimer.wheelTime, hcaught] at htime
      exact htime
    past := fun id d time tick wheelTime hmem =>
      (h.past id d time tick wheelTime hmem).imp_right
        fun htime => htime.trans (hclock (Nat.le_succ _)) }

/-- That catching up was aborted is only logged. -/
theorem Paced.aborted (h : Paced clock start tickMs k s) (turns : ℕ) :
    Paced clock start tickMs k { s with log := s.log ++ [.aborted turns] } :=
  { h with
    past := fun id d time tick wheelTime hmem =>
      h.past id d time tick wheelTime (by simpa using hmem)
    firedIssued := fun id t hmem => h.firedIssued id t (by simpa using hmem)
    due := fun e he d time tick wheelTime hmem =>
      h.due e he d time tick wheelTime (by simpa using hmem)
    neverEarly := by simpa [NeverEarly] using h.neverEarly }

theorem Resting.advanceTimer (hclock : Monotone clock) (htick : 0 < tickMs)
    (h : Resting clock start tickMs s) (onTimerTick : ℕ → Callback)
    (htimely : ∀ e ∈ (s.advanceTimer clock onTimerTick).1.log, e.Timely tickMs) :
    Resting clock start tickMs (s.advanceTimer clock onTimerTick).1 := by
  obtain ⟨k, hpaced⟩ := h.paced
  have hread := hpaced.readClock hclock h.caughtUp
  unfold LoopTimer.advanceTimer at htimely ⊢
  dsimp only at htimely ⊢
  rw [hpaced.tickMs_eq] at htimely ⊢
  by_cases helapsed : tickMs ≤ clock s.readings - s.lastTimerTick
  · simp only [helapsed, if_true] at htimely ⊢
    have hnow : s.lastTimerTick +
        (0 + (clock s.readings - s.lastTimerTick) / tickMs) * tickMs ≤
          clock (s.readings + 1) := by
      have hle := Nat.div_mul_le_self (clock s.readings - s.lastTimerTick) tickMs
      have hlater : clock s.readings ≤ clock (s.readings + 1) := hclock (Nat.le_succ _)
      rw [zero_add]
      omega
    have hcatch := hread.catchUp hclock onTimerTick _ hnow
    generalize (clock s.readings - s.lastTimerTick) / tickMs = ticks at htimely hcatch ⊢
    generalize hcaught : ({ s with readings := s.readings + 1, caughtUp := 0 } : LoopTimer).catchUp
      clock onTimerTick ticks = caught at htimely hcatch ⊢
    by_cases hthrew : caught.2
    · simp only [hthrew, if_true] at htimely ⊢
      -- an exception that counts leaves the wheel at the first tick, which it has not done
      have habort : caught.1.caughtUp = 0 := htimely (.aborted caught.1.caughtUp) (by simp)
      obtain ⟨⟨k', hpaced'⟩, -, -⟩ := hcatch fun e he => htimely e (by simp [he])
      exact ⟨⟨k', hpaced'.aborted _⟩, habort⟩
    · simp only [hthrew, Bool.false_eq_true, if_false] at htimely ⊢
      obtain ⟨⟨k', hpaced'⟩, hlast, hdone⟩ := hcatch htimely
      refine ⟨⟨k', { hpaced' with wheelTime := ?_ }⟩, rfl⟩
      have htime := hpaced'.wheelTime
      rw [LoopTimer.wheelTime, hpaced'.tickMs_eq, hlast, hdone (by simpa using hthrew)] at htime
      simpa [LoopTimer.wheelTime] using htime
  · simp only [helapsed, if_false]
    exact ⟨⟨k, hread⟩, rfl⟩

theorem Resting.iteration (hclock : Monotone clock) (htick : 0 < tickMs)
    (h : Resting clock start tickMs s) (it : Iteration)
    (htimely : ∀ e ∈ (s.iteration clock it).log, e.Timely tickMs) :
    Resting clock start tickMs (s.iteration clock it) := by
  unfold LoopTimer.iteration at htimely ⊢
  by_cases hthrows : it.handled.throws
  · simp only [hthrows, if_true] at htimely ⊢
    exact h.callAll hclock _ htimely
  · simp only [hthrows, Bool.false_eq_true, if_false] at htimely ⊢
    generalize hhandled : s.callAll clock it.handled.calls = handled at htimely ⊢
    have hrest : (∀ e ∈ handled.log, e.Timely tickMs) → Resting clock start tickMs handled := by
      rw [← hhandled]
      exact h.callAll hclock it.handled.calls
    have hadvanced := (log_relation clock).advanceTimer it.onTimerTick handled
    by_cases hthrew : (handled.advanceTimer clock it.onTimerTick).2
    · simp only [hthrew, if_true] at htimely ⊢
      exact (hrest fun e he => htimely e (hadvanced he)).advanceTimer hclock htick _ htimely
    · simp only [hthrew, Bool.false_eq_true, if_false] at htimely ⊢
      have hlater := later_callAll clock (handled.advanceTimer clock it.onTimerTick).1
        it.functors.calls
      have hdone := (hrest fun e he => htimely e (hlater.log (hadvanced he))).advanceTimer hclock
        htick it.onTimerTick fun e he => htimely e (hlater.log he)
      exact hdone.callAll hclock _ htimely

theorem log_run (clock : ℕ → ℕ) (s : LoopTimer) (its : List Iteration) :
    s.log ⊆ (s.run clock its).log :=
  (log_relation clock).run s its

theorem Resting.run (hclock : Monotone clock) (htick : 0 < tickMs)
    (h : Resting clock start tickMs s) (its : List Iteration)
    (htimely : ∀ e ∈ (s.run clock its).log, e.Timely tickMs) :
    Resting clock start tickMs (s.run clock its) := by
  induction its generalizing s with
  | nil => exact h
  | cons it its ih =>
    exact ih (h.iteration hclock htick it fun e he => htimely e (log_run clock _ its he)) htimely

/-- **No timer is early.** On any clock, in a run whose calls of `runAfter` are timely, no
callback runs before its delay is over. -/
theorem run_neverEarly (clock : ℕ → ℕ) (hclock : Monotone clock) {numSlots tickMs : ℕ}
    (hslots : 0 < numSlots) (htick : 0 < tickMs) (start : ℕ) (its : List Iteration)
    (htimely : ∀ e ∈ ((new numSlots tickMs start).run clock its).log, e.Timely tickMs) :
    NeverEarly ((new numSlots tickMs start).run clock its).log := by
  have hnew : Resting clock start tickMs (new numSlots tickMs start) :=
    ⟨⟨0, paced_new hslots tickMs start⟩, rfl⟩
  obtain ⟨k, hpaced⟩ := (hnew.run hclock htick its htimely).paced
  exact hpaced.neverEarly

/-- A timer of one tick, set by a handler at a quarter of a tick, runs at the end of the second
tick. -/
theorem run_neverEarly_oneTick :
    let log := ((new 256 1000 0).run (fun n => if n ≤ 1 then 250 else 2000)
      [{ handled := { calls := [.addTimer 1000 (some { calls := [] })] } }, {}]).log
    log = [.added 0 1000 250 0 0, .fired 0 2000] ∧ NeverEarly log := by
  refine ⟨by decide, run_neverEarly _ ?_ (by decide) (by decide) 0 _ ?_⟩
  · intro m n hmn
    dsimp only
    split <;> split <;> omega
  · decide

/-- A handler blocks for five ticks and then sets a timer of one tick: catching up runs it at
once. -/
theorem not_neverEarly_blocked :
    let log := ((new 256 1000 0).run (fun _ => 5000)
      [{ handled := { calls := [.addTimer 1000 (some { calls := [] })] } }]).log
    .added 0 1000 5000 0 0 ∈ log ∧ .fired 0 5000 ∈ log ∧ ¬ NeverEarly log := by
  have hadded : .added 0 1000 5000 0 0 ∈ ((new 256 1000 0).run (fun _ => 5000)
      [{ handled := { calls := [.addTimer 1000 (some { calls := [] })] } }]).log := by decide
  have hfired : .fired 0 5000 ∈ ((new 256 1000 0).run (fun _ => 5000)
      [{ handled := { calls := [.addTimer 1000 (some { calls := [] })] } }]).log := by decide
  exact ⟨hadded, hfired, fun h => absurd (h _ _ _ _ _ _ hadded hfired) (by decide)⟩

end LoopTimer

end XNetty.Event
