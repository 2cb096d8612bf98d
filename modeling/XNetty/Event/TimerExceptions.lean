import XNetty.Event.LoopTicks
import XNetty.Event.TimerOnce

/-!
# Exceptions of timer callbacks

An exception of a callback leaves `TimerWheel::tick` with the other due entries taken out of
their slot and not run, and `EventLoop::advanceTimer` with the ticks it has done not on
`lastTimerTick_`.

## Main definitions

* `LoopTimer.Simulates` — a run of the loop is a run of its wheel.
* `ThrowsLast` — behind a callback that throws, nothing is left to run.
* `throw_harmless_iff` — the exceptions that harm no other timer.
-/

namespace XNetty.Event

/-! ### The wheel of a loop -/

namespace TimerWheel

theorem run_append (w : TimerWheel) (ops ops' : List Op) :
    w.run (ops ++ ops') =
      (((w.run ops).1.run ops').1, (w.run ops).2 ++ ((w.run ops).1.run ops').2) := by
  induction ops generalizing w with
  | nil => rfl
  | cons op ops ih =>
    rw [List.cons_append, run, ih, run, List.append_assoc]

/-- A timer that has run has no entry any more. -/
theorem spent_of_fired {w : TimerWheel} (hw : w.Valid) {ops : List Op} {id : ℕ}
    (h : .fired id ∈ (w.run ops).2) : Spent id (w.run ops).1 := by
  induction ops using List.reverseRecOn with
  | nil => simp [run] at h
  | append_singleton ops op ih =>
    have hw' := hw.run ops
    rw [run_append] at h ⊢
    rcases List.mem_append.mp h with h | h
    · have hspent := ih h
      cases op with
      | call c => exact hspent.call hw' c
      | tick => exact Spent.tick hw' ⟨hspent.1.swapped, hspent.2⟩
    · cases op with
      | call c => cases c <;> simp [run, step, call] at h
      | tick =>
        have hpos : 0 < (w.run ops).1.tick.events.count (.fired id) :=
          List.count_pos_iff.mpr (by simpa [run, step] using h)
        rw [tick_count_fired, List.count_pos_iff] at hpos
        obtain ⟨e, he, rfl⟩ := List.mem_map.mp hpos
        exact spent_of_toFire hw' (invoked_subset _ he)

end TimerWheel

/-- How often the log has the callback of a timer run. -/
def runsOf (id : ℕ) (log : List TimedEvent) : ℕ :=
  log.countP fun | .fired timerId _ => timerId = id | _ => false

namespace LoopTimer

variable {clock : ℕ → ℕ} {s s' s'' : LoopTimer}

/-- What the loop has done between two states, its wheel has done by some operations. -/
def Simulates (s s' : LoopTimer) : Prop :=
  ∃ ops, s'.timerWheel = (s.timerWheel.run ops).1 ∧
    ∀ id, runsOf id s'.log = runsOf id s.log + (s.timerWheel.run ops).2.count (.fired id)

theorem Simulates.refl (s : LoopTimer) : Simulates s s := ⟨[], rfl, fun _ => rfl⟩

theorem Simulates.trans (h : Simulates s s') (h' : Simulates s' s'') : Simulates s s'' := by
  obtain ⟨ops, hwheel, hruns⟩ := h
  obtain ⟨ops', hwheel', hruns'⟩ := h'
  refine ⟨ops ++ ops', ?_, fun id => ?_⟩
  · rw [TimerWheel.run_append, hwheel', hwheel]
  · rw [hruns', hruns, TimerWheel.run_append, List.count_append, hwheel, Nat.add_assoc]

theorem simulates_call (s : LoopTimer) (c : Call) : Simulates s (s.call clock c) := by
  refine ⟨[.call c], rfl, fun id => ?_⟩
  cases c <;> simp [call, runsOf, TimerWheel.run, TimerWheel.step, TimerWheel.call]

theorem simulates_callAll (clock : ℕ → ℕ) (s : LoopTimer) (cs : List Call) :
    Simulates s (s.callAll clock cs) := by
  induction cs generalizing s with
  | nil => exact .refl s
  | cons c cs ih => exact (simulates_call s c).trans (ih _)

theorem runsOf_callAll (s : LoopTimer) (cs : List Call) (id : ℕ) :
    runsOf id (s.callAll clock cs).log = runsOf id s.log := by
  induction cs generalizing s with
  | nil => rfl
  | cons c cs ih =>
    refine (ih (s.call clock c)).trans ?_
    cases c <;> simp [call, runsOf]

theorem runsOf_runCallbacks (clock : ℕ → ℕ) (s : LoopTimer) (l : List TimerEntry) (id : ℕ) :
    runsOf id (s.runCallbacks clock l).1.log =
      runsOf id s.log + ((TimerWheel.invoked l).map TimerEntry.id).count id := by
  induction l generalizing s with
  | nil => rfl
  | cons entry l ih =>
    unfold runCallbacks
    cases hcb : entry.callback with
    | none => simpa [TimerWheel.invoked, hcb] using ih s
    | some callback =>
      have hcalled : runsOf id ((s.fire clock entry.id).callAll clock callback.calls).log =
          runsOf id s.log + [entry.id].count id := by
        rw [runsOf_callAll]
        simp [fire, runsOf, List.countP_singleton, List.count_singleton]
      by_cases hthrows : callback.throws
      · simpa [TimerWheel.invoked, hcb, hthrows] using hcalled
      · have hrest := ih ((s.fire clock entry.id).callAll clock callback.calls)
        rw [hcalled, Nat.add_assoc, ← List.count_append] at hrest
        simpa [TimerWheel.invoked, hcb, hthrows] using hrest

theorem simulates_tick (clock : ℕ → ℕ) (s : LoopTimer) : Simulates s (s.tick clock).1 := by
  refine ⟨[.tick], (tick_timerWheel clock s).1, fun id => ?_⟩
  have hran := runsOf_runCallbacks clock { s with timerWheel := s.timerWheel.swapped }
    s.timerWheel.toFire id
  have hcount : (s.timerWheel.run [.tick]).2.count (.fired id) =
      ((TimerWheel.invoked s.timerWheel.toFire).map TimerEntry.id).count id := by
    simpa [TimerWheel.run, TimerWheel.step] using s.timerWheel.tick_count_fired id
  rw [hcount]
  unfold tick
  dsimp only
  split <;> exact hran

theorem simulates_relation (clock : ℕ → ℕ) : LoopRelation clock Simulates where
  refl := .refl
  trans := .trans
  callAll := simulates_callAll clock
  tick := simulates_tick clock
  started s := ⟨[], rfl, fun _ => rfl⟩
  aborted s := ⟨[], rfl, fun id => by simp [runsOf, TimerWheel.run]⟩
  finished s _ := ⟨[], rfl, fun _ => rfl⟩

/-- **A run of the loop is a run of its wheel.** -/
theorem simulates_run (clock : ℕ → ℕ) (s : LoopTimer) (its : List Iteration) :
    Simulates s (s.run clock its) :=
  (simulates_relation clock).run s its

end LoopTimer

/-! ### What is left behind an exception -/

/-- The callback of the entry throws. -/
def TimerEntry.Throws (e : TimerEntry) : Prop := ∃ body, e.callback = some body ∧ body.throws = true

/-- Nothing is left to run behind a callback that throws. -/
def ThrowsLast (l : List TimerEntry) : Prop :=
  l.Pairwise fun entry later => entry.Throws → later.callback = none

theorem throwsLast_iff {l : List TimerEntry} (hnodup : (l.map TimerEntry.id).Nodup) :
    ThrowsLast l ↔ ∀ e ∈ l, e.callback.isSome → e ∈ TimerWheel.invoked l := by
  induction l with
  | nil => simp [ThrowsLast]
  | cons entry l ih =>
    obtain ⟨hfresh, hnodup⟩ := List.nodup_cons.mp hnodup
    have hrest := ih hnodup
    rw [ThrowsLast, List.pairwise_cons, List.forall_mem_cons]
    change _ ∧ ThrowsLast l ↔ _
    cases hcb : entry.callback with
    | none =>
      have hquiet : ¬ entry.Throws := by simp [TimerEntry.Throws, hcb]
      simp [TimerWheel.invoked, hcb, hrest, hquiet]
    | some body =>
      by_cases hthrows : body.throws
      · -- the rest is not invoked, and an entry of the rest is not this one
        have hthrow : entry.Throws := ⟨body, hcb, hthrows⟩
        have hne : ∀ e ∈ l, e ≠ entry := fun e he heq =>
          hfresh (heq ▸ List.mem_map_of_mem he)
        simp only [TimerWheel.invoked, hcb, hthrows, hthrow, if_true, true_implies,
          List.mem_singleton, Option.isSome_some, true_and]
        constructor
        · rintro ⟨hnone, -⟩ e he hsome
          simp [hnone e he] at hsome
        · intro h
          have hnone : ∀ e ∈ l, e.callback = none := fun e he => by
            by_contra hsome
            exact hne e he (h e he (Option.isSome_iff_ne_none.mpr hsome))
          refine ⟨hnone, hrest.mpr fun e he hsome => ?_⟩
          simp [hnone e he] at hsome
      · have hquiet : ¬ entry.Throws := by simp [TimerEntry.Throws, hcb, hthrows]
        have hne : ∀ e ∈ l, e ≠ entry := fun e he heq =>
          hfresh (heq ▸ List.mem_map_of_mem he)
        simp only [TimerWheel.invoked, hcb, hthrows, hquiet, Bool.false_eq_true, if_false,
          false_implies, implies_true, true_and, hrest, List.mem_cons, true_or]
        exact forall₂_congr fun e he => by simp [hne e he]

namespace LoopTimer

theorem catchUp_succ (clock : ℕ → ℕ) (onTimerTick : ℕ → Callback) (s : LoopTimer)
    (remaining : ℕ) :
    s.catchUp clock onTimerTick (remaining + 1) =
      if (s.tick clock).2 then s.tick clock
      else if (onTimerTick s.caughtUp).throws then
        ((s.tick clock).1.callAll clock (onTimerTick s.caughtUp).calls, true)
      else ((s.tick clock).1.callAll clock (onTimerTick s.caughtUp).calls).catchUp clock onTimerTick
        remaining := rfl

/-- A catch-up loop goes on as one that begins where it is. -/
theorem catchUp_add {onTimerTick : ℕ → Callback} {s : LoopTimer} {done : ℕ}
    (h : (s.catchUp clock onTimerTick done).2 = false) (remaining : ℕ) :
    s.catchUp clock onTimerTick (done + remaining) =
      (s.catchUp clock onTimerTick done).1.catchUp clock onTimerTick remaining := by
  induction done generalizing s with
  | zero => rw [Nat.zero_add, catchUp]
  | succ done ih =>
    rw [Nat.succ_add, catchUp_succ]
    rw [catchUp_succ] at h ⊢
    split at h
    · rename_i hthrew
      exact absurd hthrew (by simp [h])
    · rename_i hthrew
      split at h
      · simp at h
      · rename_i hthrows
        simp only [hthrew, hthrows, if_false, Bool.false_eq_true]
        exact ih h

/-- The throwing tick ends `advanceTimer`. -/
theorem advanceTimer_threw {onTimerTick : ℕ → Callback} {s : LoopTimer} {done : ℕ}
    (hlast : done < (clock s.readings - s.lastTimerTick) / s.timerWheel.tickMs) :
    let started : LoopTimer := { s with readings := s.readings + 1, caughtUp := 0 }
    let before := (started.catchUp clock onTimerTick done).1
    (started.catchUp clock onTimerTick done).2 = false → (before.tick clock).2 = true →
      s.advanceTimer clock onTimerTick =
        ({ (before.tick clock).1 with
            log := (before.tick clock).1.log ++ [.aborted (before.tick clock).1.caughtUp] },
          true) := by
  intro started before hdone hthrew
  obtain ⟨remaining, hwhole⟩ := Nat.exists_eq_add_of_lt hlast
  have helapsed : s.timerWheel.tickMs ≤ clock s.readings - s.lastTimerTick := by
    by_contra hless
    rw [Nat.div_eq_of_lt (Nat.lt_of_not_le hless)] at hlast
    exact absurd hlast (Nat.not_lt_zero _)
  have hcaught : started.catchUp clock onTimerTick
      ((clock s.readings - s.lastTimerTick) / s.timerWheel.tickMs) = before.tick clock := by
    rw [hwhole, Nat.add_assoc, catchUp_add hdone, catchUp_succ]
    exact if_pos hthrew
  unfold advanceTimer
  dsimp only
  rw [if_pos helapsed]
  simp only [started] at hcaught
  rw [hcaught, if_pos hthrew]

section Threw

variable {onTimerTick : ℕ → Callback} {s started before : LoopTimer} {done : ℕ}

/-- The ticks before the throwing one are done, and are to be counted once more. -/
theorem recounted_advanceTimer_threw {start tickMs ahead k : ℕ}
    (hturned : Turned start tickMs ahead k s)
    (hstarted : started = { s with readings := s.readings + 1, caughtUp := 0 })
    (hbefore : before = (started.catchUp clock onTimerTick done).1)
    (hlast : done < (clock s.readings - s.lastTimerTick) / s.timerWheel.tickMs)
    (hdone : (started.catchUp clock onTimerTick done).2 = false)
    (hthrew : (before.tick clock).2 = true) :
    recounted (s.advanceTimer clock onTimerTick).1.log = recounted s.log + done := by
  subst hstarted hbefore
  obtain ⟨ticks, hcaught, hall⟩ := Turned.catchUp clock (hturned.congr (.refl _) rfl :
    Turned start tickMs ahead k { s with readings := s.readings + 1, caughtUp := 0 })
    onTimerTick done
  have hcaughtUp := (later_tick clock (LoopTimer.catchUp clock onTimerTick
    { s with readings := s.readings + 1, caughtUp := 0 } done).1).caughtUp
  simp only [hthrew, if_true, hcaught.caughtUp, hall hdone, Nat.zero_add] at hcaughtUp
  rw [advanceTimer_threw hlast hdone hthrew]
  simp only [recounted_append, recounted_tick, recounted_catchUp, recounted_aborted, hcaughtUp]

/-- Behind the throwing tick, the call runs nothing. -/
theorem simulates_advanceTimer_threw
    (hstarted : started = { s with readings := s.readings + 1, caughtUp := 0 })
    (hbefore : before = (started.catchUp clock onTimerTick done).1)
    (hlast : done < (clock s.readings - s.lastTimerTick) / s.timerWheel.tickMs)
    (hdone : (started.catchUp clock onTimerTick done).2 = false)
    (hthrew : (before.tick clock).2 = true) :
    Simulates (before.tick clock).1 (s.advanceTimer clock onTimerTick).1 := by
  subst hstarted hbefore
  rw [advanceTimer_threw hlast hdone hthrew]
  refine ⟨[], rfl, fun id => ?_⟩
  simp [runsOf, TimerWheel.run]

end Threw

/-- An iteration that no exception of `advanceTimer` ends. -/
def Returns (clock : ℕ → ℕ) (s : LoopTimer) (it : Iteration) : Prop :=
  it.handled.throws = true ∨
    ((s.callAll clock it.handled.calls).advanceTimer clock it.onTimerTick).2 = false

theorem recounted_iteration {it : Iteration} (h : Returns clock s it) :
    recounted (s.iteration clock it).log = recounted s.log := by
  have hhandled := recounted_callAll clock s it.handled.calls
  unfold iteration
  dsimp only
  split
  · exact hhandled
  · rename_i hthrows
    have hreturns := h.resolve_left hthrows
    rw [hreturns]
    exact (recounted_callAll clock _ _).trans ((recounted_advanceTimer hreturns).trans hhandled)

theorem recounted_run {its : List Iteration}
    (h : Ledger.Along (iteration clock) (Returns clock) s its) :
    recounted (s.run clock its).log = recounted s.log := by
  induction its generalizing s with
  | nil => rfl
  | cons it its ih => exact (ih h.2).trans (recounted_iteration h.1)

/-- From the throwing tick on: each of the timers it has taken out runs once if the tick comes
to it before the exception, and else never. -/
theorem runsOf_due {s s' : LoopTimer} {w : TimerWheel} (hw : w.Valid) {ops : List TimerWheel.Op}
    (hwheel : s.timerWheel = (w.run ops).1)
    (hruns : ∀ id, runsOf id s.log = (w.run ops).2.count (.fired id))
    (h : Simulates (s.tick clock).1 s') {e : TimerEntry} (he : e ∈ s.timerWheel.toFire) :
    runsOf e.id s'.log = 1 ↔ e ∈ TimerWheel.invoked s.timerWheel.toFire := by
  have hvalid : s.timerWheel.Valid := hwheel ▸ hw.run ops
  obtain ⟨hentry, hlive⟩ := s.timerWheel.toFire_subset he
  have hbefore : runsOf e.id s.log = 0 := by
    rw [hruns, List.count_eq_zero]
    intro hfired
    have hgone := (TimerWheel.spent_of_fired hw hfired).1
    rw [← hwheel] at hgone
    simp [hgone e hentry rfl] at hlive
  obtain ⟨ops', -, hlater⟩ := h
  have htick := runsOf_runCallbacks clock { s with timerWheel := s.timerWheel.swapped }
    s.timerWheel.toFire e.id
  have hlog : (s.tick clock).1.log =
      (runCallbacks clock { s with timerWheel := s.timerWheel.swapped }
        s.timerWheel.toFire).1.log := by
    unfold tick
    dsimp only
    split <;> rfl
  rw [← TimerWheel.count_fired_due hvalid he ops', hlater, hlog, htick,
    (tick_timerWheel clock s).1, TimerWheel.run, List.count_append, hbefore, Nat.zero_add,
    ← TimerWheel.tick_count_fired]
  rfl

/-- **The exceptions that harm no other timer.** A callback throws in the tick that follows
`done` ticks of a catch-up loop, and later calls of `advanceTimer` return. All timers due in that
tick run once, and the ticks done are the whole ticks on the clock, exactly if nothing is left to
run behind a callback that throws and the tick is the first of its catch-up loop, as those of
earlier exceptions were. -/
theorem throw_harmless_iff (clock : ℕ → ℕ) (hclock : Monotone clock) {numSlots tickMs start : ℕ}
    (hslots : 0 < numSlots) (htick : 0 < tickMs) (hstart : start ≤ clock 0)
    (its its' : List Iteration) (it it' : Iteration) (done : ℕ) :
    let loop := new numSlots tickMs start
    let s := (loop.run clock its).callAll clock it.handled.calls
    let started : LoopTimer := { s with readings := s.readings + 1, caughtUp := 0 }
    let before := (started.catchUp clock it.onTimerTick done).1
    let s' := (loop.run clock (its ++ it :: its')).callAll clock it'.handled.calls
    let advanced := s'.advanceTimer clock it'.onTimerTick
    it.handled.throws = false →
      done < (clock s.readings - s.lastTimerTick) / tickMs →
      (started.catchUp clock it.onTimerTick done).2 = false → (before.tick clock).2 = true →
      Ledger.Along (iteration clock) (Returns clock) (loop.run clock (its ++ [it])) its' →
      advanced.2 = false →
        ((∀ e ∈ before.timerWheel.toFire, e.callback.isSome → runsOf e.id advanced.1.log = 1) ∧
            loop.runTicks clock (its ++ it :: its') + s'.advanceTicks clock it'.onTimerTick =
              (clock s'.readings - start) / tickMs ↔
          ThrowsLast before.timerWheel.toFire ∧ done = 0 ∧ recounted s.log = 0) := by
  intro loop s started before s' advanced hhandled hlast hdone hthrew hreturns hadvanced
  have hcounted := ((counted_new hstart numSlots tickMs).run hclock htick its).callAll hclock
    it.handled.calls
  have hms : s.timerWheel.tickMs = tickMs := hcounted.turned.tickMs_eq
  -- the iteration ends with the throwing tick
  have hwithin : done < (clock s.readings - s.lastTimerTick) / s.timerWheel.tickMs := hms ▸ hlast
  have hended := advanceTimer_threw hwithin hdone hthrew
  have hafter : loop.run clock (its ++ [it]) = (s.advanceTimer clock it.onTimerTick).1 := by
    rw [run, List.foldl_append, List.foldl_cons, List.foldl_nil, iteration, hhandled]
    simp only [Bool.false_eq_true, if_false]
    exact if_pos (congrArg Prod.snd hended)
  have hrun : loop.run clock (its ++ it :: its') =
      (s.advanceTimer clock it.onTimerTick).1.run clock its' := by
    rw [← hafter, run, run, run, ← List.foldl_append, List.append_assoc, List.singleton_append]
  rw [hafter] at hreturns
  -- what the later calls do once more
  have hrecounted : recounted advanced.1.log = recounted s.log + done := by
    rw [recounted_advanceTimer hadvanced, recounted_callAll clock, hrun, recounted_run hreturns,
      recounted_advanceTimer_threw hcounted.turned rfl rfl hwithin hdone hthrew]
  have hticks := (runTicks_advanceTimer hclock htick hstart numSlots (its ++ it :: its')
    it'.handled.calls it'.onTimerTick hadvanced).2.2
  rw [hrecounted] at hticks
  -- what becomes of the due timers
  have hbefore : Simulates loop before :=
    ((simulates_run clock loop its).trans (simulates_callAll clock _ it.handled.calls)).trans
      ((simulates_relation clock).catchUp it.onTimerTick started done)
  have hlater : Simulates (before.tick clock).1 advanced.1 := by
    have hnoted : Simulates (before.tick clock).1 (s.advanceTimer clock it.onTimerTick).1 :=
      simulates_advanceTimer_threw rfl rfl hwithin hdone hthrew
    have hrest := (simulates_run clock (s.advanceTimer clock it.onTimerTick).1 its').trans
      (simulates_callAll clock _ it'.handled.calls)
    rw [← hrun] at hrest
    exact (hnoted.trans hrest).trans ((simulates_relation clock).advanceTimer it'.onTimerTick s')
  obtain ⟨ops, hwheel, hruns⟩ := hbefore
  have hvalid : before.timerWheel.Valid := hwheel ▸ (TimerWheel.new_valid hslots tickMs).run ops
  have hdue : ∀ e ∈ before.timerWheel.toFire,
      (runsOf e.id advanced.1.log = 1 ↔ e ∈ TimerWheel.invoked before.timerWheel.toFire) :=
    fun e he => runsOf_due (TimerWheel.new_valid hslots tickMs) hwheel
      (fun id => (hruns id).trans (Nat.zero_add _)) hlater he
  rw [throwsLast_iff (TimerWheel.toFire_nodup hvalid)]
  refine and_congr (forall₂_congr fun e he => imp_congr_right fun _ => hdue e he) ?_
  rw [hticks, Nat.add_eq_left, Nat.add_eq_zero_iff, and_comm]

/-- A handler sets a timer that throws, alone in the first tick. -/
def oneThrows : Iteration :=
  { handled := { calls := [.addTimer 0 (some { calls := [], throws := true })] } }

theorem throw_harmless_iff_oneThrows :
    let clock : ℕ → ℕ := fun n => min n 1 * 1000
    let s' := (new 2 1000 0).run clock [oneThrows]
    (s'.advanceTimer clock fun _ => { calls := [] }).2 = false ∧
      (new 2 1000 0).runTicks clock [oneThrows] +
        s'.advanceTicks clock (fun _ => { calls := [] }) = (1000 - 0) / 1000 := by
  have hclock : Monotone fun n : ℕ => min n 1 * 1000 := fun m n hmn =>
    Nat.mul_le_mul_right _ (min_le_min_right 1 hmn)
  have hlast : ThrowsLast [⟨0, 0, some { calls := [], throws := true }, false⟩] :=
    List.pairwise_singleton _ _
  exact ⟨by decide, ((@throw_harmless_iff _ hclock 2 1000 0 (by decide) (by decide) (by decide)
    [] [] oneThrows {} 0 rfl (by decide) rfl (by decide) trivial (by decide)).mpr
    ⟨hlast, rfl, rfl⟩).2⟩

/-- A handler sets two timers of one tick, of which the first throws, and two ticks pass. -/
def firstThrows : Iteration :=
  { handled := { calls :=
      [.addTimer 1000 (some { calls := [], throws := true }),
        .addTimer 1000 (some { calls := [] })] } }

/-- The second timer is taken out of its slot and not run, and the tick that was done before the
throwing one is done again. -/
theorem not_harmless_firstThrows :
    let clock : ℕ → ℕ := fun n => if n ≤ 1 then 0 else 2000
    let loop := new 2 1000 0
    let s' := loop.run clock [firstThrows]
    let advanced := s'.advanceTimer clock fun _ => { calls := [] }
    s'.log = [.added 0 1000 0 0 0, .added 1 1000 0 0 0, .fired 0 2000, .aborted 1] ∧
      advanced.2 = false ∧ runsOf 1 advanced.1.log = 0 ∧
      advanced.1.timerWheel.entries.map TimerEntry.id = [] ∧
      loop.runTicks clock [firstThrows] + s'.advanceTicks clock (fun _ => { calls := [] }) = 3 ∧
      (2000 - 0) / 1000 = 2 := by decide

end LoopTimer

end XNetty.Event
