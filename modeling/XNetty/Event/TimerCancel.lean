import XNetty.Lib.Ledger
import XNetty.Event.TimerWheel

/-!
# Cancelling a timer

A tick takes its due entries out of the slots before it runs them, and `cancelTimer` searches
the slots. So a timer that is cancelled stays silent unless it is cancelled by a callback of
the tick that is about to run it.

## Main definitions

* `Quiet` — in a trace, a timer that was cancelled is not invoked afterwards.
* `CancelsInTime` — no callback of the next tick cancels a timer that the same tick runs later.
* `quiet_run_iff` — the runs in which cancelled timers stay silent.
-/

namespace XNetty.Event.TimerWheel

/-- The callback of `id` is not invoked, unless the id is only given out before. -/
def Silent (id : Nat) (trace : List TimerEvent) : Prop :=
  ∀ mid post, trace = mid ++ .fired id :: post → .added id ∈ mid

/-- Once `cancelTimer(id)` has returned, the callback of timer `id` is not invoked. -/
def Quiet (trace : List TimerEvent) : Prop :=
  ∀ pre id post, trace = pre ++ .cancelled id :: post → Silent id post

/-- The entries a loop over `l` invokes: it passes over empty callbacks and ends when one throws. -/
def invoked : List TimerEntry → List TimerEntry
  | [] => []
  | entry :: l =>
    match entry.callback with
    | none => invoked l
    | some callback => if callback.throws then [entry] else entry :: invoked l

theorem invoked_subset (l : List TimerEntry) {e : TimerEntry} (h : e ∈ invoked l) : e ∈ l := by
  induction l with
  | nil => exact h
  | cons entry l ih =>
    cases hcb : entry.callback with
    | none => exact List.mem_cons_of_mem _ (ih (by simpa [invoked, hcb] using h))
    | some callback =>
      by_cases hthrows : callback.throws
      · simp_all [invoked]
      · rcases (by simpa [invoked, hcb, hthrows] using h : e = entry ∨ e ∈ invoked l) with rfl | h
        · exact List.mem_cons_self
        · exact List.mem_cons_of_mem _ (ih h)

def Call.cancels : Call → Option Nat
  | .addTimer _ _ => none
  | .cancelTimer timerId => some timerId

/-- The ids that the callback of an entry cancels. -/
def cancels (entry : TimerEntry) : List Nat :=
  match entry.callback with
  | none => []
  | some callback => callback.calls.filterMap Call.cancels

/-- No callback of the next tick cancels a timer that the same tick invokes after it. -/
def CancelsInTime (w : TimerWheel) : Prop :=
  (invoked w.toFire).Pairwise fun entry later => later.id ∉ cancels entry

/-! ### Traces -/

/-- No entry in a slot can still invoke the callback of `id`. -/
def Gone (id : Nat) (w : TimerWheel) : Prop := ∀ e ∈ w.entries, e.id = id → e.canceled = true

/-- The trace is silent about `id`, and the wheel it leaves will be unless `id` is given out. -/
def Mute (id : Nat) (trace : List TimerEvent) (w : TimerWheel) : Prop :=
  Silent id trace ∧ (.added id ∈ trace ∨ Gone id w)

/-- Behind each cancellation the trace is mute. -/
def Orderly (trace : List TimerEvent) (w : TimerWheel) : Prop :=
  ∀ pre id post, trace = pre ++ .cancelled id :: post → Mute id post w

variable {id : Nat} {t t' : List TimerEvent} {w w' : TimerWheel}

theorem Mute.append (h : Mute id t w) (h' : Gone id w → Mute id t' w') :
    Mute id (t ++ t') w' := by
  obtain ⟨hsilent, hleft⟩ := h
  constructor
  · intro mid post hsplit
    rcases List.append_eq_append_iff.mp hsplit with ⟨rest, rfl, hrest⟩ | ⟨rest, ht, hpost⟩
    · rcases hleft with hadded | hgone
      · exact List.mem_append_left _ hadded
      · exact List.mem_append_right _ ((h' hgone).1 rest post hrest)
    · cases rest with
      | nil =>
        rcases hleft with hadded | hgone
        · simpa [ht] using hadded
        · have := (h' hgone).1 [] post (by simpa using hpost.symm)
          simp at this
      | cons x rest =>
        obtain ⟨rfl, -⟩ := List.cons.inj hpost
        exact hsilent mid rest ht
  · rcases hleft with hadded | hgone
    · exact .inl (List.mem_append_left _ hadded)
    · exact (h' hgone).2.imp_left (List.mem_append_right _)

theorem Orderly.append (h : Orderly t w) (h' : Orderly t' w')
    (hgone : ∀ id, .cancelled id ∈ t → Gone id w → Mute id t' w') : Orderly (t ++ t') w' := by
  intro pre id post hsplit
  rcases List.append_eq_append_iff.mp hsplit with ⟨rest, rfl, hrest⟩ | ⟨rest, ht, hpost⟩
  · exact h' rest id post hrest
  · cases rest with
    | nil => exact h' [] id post (by simpa using hpost.symm)
    | cons x rest =>
      obtain ⟨rfl, rfl⟩ := List.cons.inj hpost
      exact (h pre id rest ht).append (hgone id (by simp [ht]))

theorem Orderly.quiet (h : Orderly t w) : Quiet t := fun pre id post hsplit =>
  (h pre id post hsplit).1

theorem orderly_nil (w : TimerWheel) : Orderly [] w := by
  intro pre id post hsplit
  simp at hsplit

theorem mute_nil (h : Gone id w) : Mute id [] w :=
  ⟨fun mid post hsplit => by simp at hsplit, .inr h⟩

theorem Quiet.within (pre post : List TimerEvent) (h : Quiet (pre ++ t ++ post)) : Quiet t := by
  rintro p id q rfl mid r rfl
  exact h (pre ++ p) id (mid ++ .fired id :: r ++ post) (by simp) mid (r ++ post) (by simp)

/-! ### Calls -/

theorem Gone.call (hw : w.Valid) (h : Gone id w) (c : Call) :
    Mute id [(w.call c).2] (w.call c).1 := by
  cases c with
  | addTimer delayMs callback =>
    refine ⟨fun mid post hsplit => ?_, ?_⟩
    · cases mid <;> simp at hsplit
    · by_cases hid : w.nextId = id
      · exact .inl (by simp [hid])
      · refine .inr fun e he heq => ?_
        rcases List.mem_cons.mp ((addTimer_entries hw _ _).mem_iff.mp he) with rfl | he
        · exact absurd heq hid
        · exact h e he heq
  | cancelTimer timerId =>
    refine ⟨fun mid post hsplit => ?_, .inr fun e he heq => ?_⟩
    · cases mid <;> simp at hsplit
    · rw [call_cancelTimer, cancelTimer_entries hw] at he
      obtain ⟨f, hf, rfl⟩ := List.mem_map.mp he
      have hcanceled := h f hf (by simpa using heq)
      unfold marked
      split
      · rfl
      · exact hcanceled

theorem gone_cancelTimer (hw : w.Valid) (timerId : Nat) : Gone timerId (w.cancelTimer timerId) := by
  intro e he heq
  rw [cancelTimer_entries hw] at he
  obtain ⟨f, hf, rfl⟩ := List.mem_map.mp he
  rw [marked, if_pos (by simpa using heq)]

theorem orderly_call (hw : w.Valid) (c : Call) : Orderly [(w.call c).2] (w.call c).1 := by
  intro pre id post hsplit
  cases c with
  | addTimer delayMs callback => cases pre <;> simp [call] at hsplit
  | cancelTimer timerId =>
    obtain ⟨rfl, rfl, rfl⟩ : pre = [] ∧ timerId = id ∧ post = [] := by
      cases pre <;> simp_all [call]
    exact mute_nil (gone_cancelTimer hw timerId)

theorem Gone.callAll (hw : w.Valid) (h : Gone id w) (cs : List Call) :
    Mute id (w.callAll cs).2 (w.callAll cs).1 := by
  induction cs generalizing w with
  | nil => exact mute_nil h
  | cons c cs ih => exact (h.call hw c).append fun hgone => ih (hw.call c) hgone

theorem orderly_callAll (hw : w.Valid) (cs : List Call) :
    Orderly (w.callAll cs).2 (w.callAll cs).1 := by
  induction cs generalizing w with
  | nil => exact orderly_nil w
  | cons c cs ih =>
    exact (orderly_call hw c).append (ih (hw.call c)) fun _ _ hgone =>
      hgone.callAll (hw.call c) cs

theorem mem_callAll_cancelled (w : TimerWheel) (cs : List Call) (id : Nat) :
    .cancelled id ∈ (w.callAll cs).2 ↔ id ∈ cs.filterMap Call.cancels := by
  induction cs generalizing w with
  | nil => simp [callAll]
  | cons c cs ih => cases c <;> simp [callAll, call, ih, Call.cancels, List.filterMap_cons]

/-! ### The loop over the due entries -/

/-- How one invocation splits the trace of the loop. -/
theorem runCallbacks_cons (w : TimerWheel) (entry : TimerEntry) (l : List TimerEntry) :
    w.runCallbacks (entry :: l) =
      match entry.callback with
      | none => w.runCallbacks l
      | some callback =>
        if callback.throws then
          { wheel := (w.callAll callback.calls).1,
            events := [.fired entry.id] ++ (w.callAll callback.calls).2, threw := true }
        else
          { (w.callAll callback.calls).1.runCallbacks l with
            events := [.fired entry.id] ++ (w.callAll callback.calls).2 ++
              ((w.callAll callback.calls).1.runCallbacks l).events } := rfl

theorem mute_fired {entry : TimerEntry} (h : Gone id w) (hne : entry.id ≠ id) :
    Mute id [.fired entry.id] w := by
  refine ⟨fun mid post hsplit => ?_, .inr h⟩
  cases mid <;> simp_all

theorem orderly_fired (entry : TimerEntry) (w : TimerWheel) : Orderly [.fired entry.id] w := by
  intro pre id post hsplit
  cases pre <;> simp at hsplit

theorem Gone.runCallbacks (hw : w.Valid) (h : Gone id w) {l : List TimerEntry}
    (hl : id ∉ (invoked l).map TimerEntry.id) :
    Mute id (w.runCallbacks l).events (w.runCallbacks l).wheel := by
  induction l generalizing w with
  | nil => exact mute_nil h
  | cons entry l ih =>
    rw [runCallbacks_cons]
    cases hcb : entry.callback with
    | none => exact ih hw h (by simpa [invoked, hcb] using hl)
    | some callback =>
      have hcalled := fun hne : entry.id ≠ id => (mute_fired h hne).append fun hgone =>
        hgone.callAll hw callback.calls
      by_cases hthrows : callback.throws
      · have hne : entry.id ≠ id := by
          rintro rfl
          simp [invoked, hcb, hthrows] at hl
        simpa [hthrows] using hcalled hne
      · obtain ⟨hne, hrest⟩ : entry.id ≠ id ∧ id ∉ (invoked l).map TimerEntry.id := by
          simpa [invoked, hcb, hthrows, eq_comm] using hl
        simpa [hthrows] using (hcalled hne).append fun hgone =>
          ih (hw.callAll _) hgone hrest

theorem orderly_runCallbacks (hw : w.Valid) {l : List TimerEntry}
    (hl : (invoked l).Pairwise fun entry later => later.id ∉ cancels entry) :
    Orderly (w.runCallbacks l).events (w.runCallbacks l).wheel := by
  induction l generalizing w with
  | nil => exact orderly_nil w
  | cons entry l ih =>
    rw [runCallbacks_cons]
    cases hcb : entry.callback with
    | none => exact ih hw (by simpa [invoked, hcb] using hl)
    | some callback =>
      have hcalled := (orderly_fired entry w).append (orderly_callAll hw callback.calls)
        (by simp)
      by_cases hthrows : callback.throws
      · simpa [hthrows] using hcalled
      · obtain ⟨hentry, hrest⟩ := List.pairwise_cons.mp
          (by simpa [invoked, hcb, hthrows] using hl :
            (entry :: invoked l).Pairwise fun entry later => later.id ∉ cancels entry)
        have happ := hcalled.append (ih (hw.callAll _) hrest) fun id hmem hgone =>
          hgone.runCallbacks (hw.callAll _) fun hin => by
            obtain ⟨later, hlater, rfl⟩ := List.mem_map.mp hin
            refine hentry later hlater ?_
            rw [cancels, hcb]
            exact (mem_callAll_cancelled w _ _).mp (by simpa using hmem)
        simpa [hthrows] using happ

/-! ### Ids given out -/

theorem callAll_nextId (w : TimerWheel) (cs : List Call) :
    w.nextId ≤ (w.callAll cs).1.nextId ∧
      ∀ id, .added id ∈ (w.callAll cs).2 → w.nextId ≤ id := by
  induction cs generalizing w with
  | nil => simp [callAll]
  | cons c cs ih =>
    obtain ⟨hle, hadded⟩ := ih (w.call c).1
    cases c with
    | addTimer delayMs callback =>
      have hle : w.nextId + 1 ≤ _ := hle
      refine ⟨by simpa [callAll] using Nat.le_of_succ_le hle, fun id hmem => ?_⟩
      rcases List.mem_cons.mp hmem with heq | hmem
      · obtain rfl : id = w.nextId := by simpa [call] using heq
        exact le_rfl
      · have : w.nextId + 1 ≤ id := hadded id hmem
        omega
    | cancelTimer timerId =>
      refine ⟨hle, fun id hmem => hadded id ?_⟩
      rcases List.mem_cons.mp hmem with heq | hmem
      · simp [call] at heq
      · exact hmem

theorem runCallbacks_added (w : TimerWheel) (l : List TimerEntry) :
    ∀ id, .added id ∈ (w.runCallbacks l).events → w.nextId ≤ id := by
  induction l generalizing w with
  | nil => simp [runCallbacks]
  | cons entry l ih =>
    rw [runCallbacks_cons]
    cases entry.callback with
    | none => exact ih w
    | some callback =>
      obtain ⟨hle, hadded⟩ := callAll_nextId w callback.calls
      intro id hmem
      by_cases hthrows : callback.throws
      · exact hadded id (by simpa [hthrows] using hmem)
      · rcases (by simpa [hthrows] using hmem :
          .added id ∈ (w.callAll callback.calls).2 ∨
            .added id ∈ ((w.callAll callback.calls).1.runCallbacks l).events) with hmem | hmem
        · exact hadded id hmem
        · exact hle.trans (ih _ id hmem)

theorem mem_runCallbacks_fired (w : TimerWheel) {l : List TimerEntry} {entry : TimerEntry}
    (h : entry ∈ invoked l) : .fired entry.id ∈ (w.runCallbacks l).events := by
  induction l generalizing w with
  | nil => simp [invoked] at h
  | cons e l ih =>
    rw [runCallbacks_cons]
    cases hcb : e.callback with
    | none => exact ih w (by simpa [invoked, hcb] using h)
    | some callback =>
      by_cases hthrows : callback.throws
      · obtain rfl : entry = e := by simpa [invoked, hcb, hthrows] using h
        simp [hthrows]
      · rcases (by simpa [invoked, hcb, hthrows] using h : entry = e ∨ entry ∈ invoked l)
          with rfl | h
        · simp [hthrows]
        · simpa [hthrows] using .inr (.inr (ih _ h))

/-- A callback that cancels a later entry of the loop breaks the silence. -/
theorem pairwise_of_quiet {w : TimerWheel} {l : List TimerEntry} (bound : Nat)
    (hbound : bound ≤ w.nextId) (hissued : ∀ e ∈ l, e.id < bound)
    (h : Quiet (w.runCallbacks l).events) :
    (invoked l).Pairwise fun entry later => later.id ∉ cancels entry := by
  induction l generalizing w with
  | nil => exact .nil
  | cons entry l ih =>
    have hadded := w.runCallbacks_added (entry :: l)
    rw [runCallbacks_cons] at h hadded
    obtain ⟨-, hissued⟩ := List.forall_mem_cons.mp hissued
    cases hcb : entry.callback with
    | none =>
      rw [hcb] at h
      simpa [invoked, hcb] using ih hbound hissued h
    | some callback =>
      by_cases hthrows : callback.throws
      · simp [invoked, hcb, hthrows]
      · simp only [hcb, hthrows, Bool.false_eq_true, if_false] at h hadded
        have hle := (w.callAll_nextId callback.calls).1
        have hrest := ih (hbound.trans hle) hissued
          (Quiet.within (.fired entry.id :: (w.callAll callback.calls).2) [] (by simpa using h))
        have hfirst : ∀ later ∈ invoked l, later.id ∉ cancels entry := by
          intro later hlater hcancels
          rw [cancels, hcb] at hcancels
          obtain ⟨pre, mid, hcalled⟩ :=
            List.append_of_mem ((mem_callAll_cancelled w callback.calls later.id).mpr hcancels)
          obtain ⟨mid', post, hran⟩ := List.append_of_mem
            (mem_runCallbacks_fired (w.callAll callback.calls).1 hlater)
          -- the id was given out before the loop began, so it cannot be given out in between
          have hmem : TimerEvent.added later.id ∈ mid ++ mid' :=
            h (.fired entry.id :: pre) later.id (mid ++ (mid' ++ .fired later.id :: post))
              (by simp [hcalled, hran]) (mid ++ mid') post (by simp)
          have hnew : w.nextId ≤ later.id := by
            refine hadded later.id ?_
            rw [hcalled, hran]
            simp only [List.mem_append, List.mem_cons] at hmem ⊢
            tauto
          have hold := hissued later (invoked_subset l hlater)
          omega
        simpa [invoked, hcb, hthrows] using ⟨hfirst, hrest⟩

/-! ### Runs -/

theorem toFire_subset (w : TimerWheel) {e : TimerEntry} (h : e ∈ w.toFire) :
    e ∈ w.entries ∧ e.canceled = false := by
  obtain ⟨hmem, hlive⟩ := List.mem_filter.mp h
  simp only [Bool.and_eq_true, Bool.not_eq_true'] at hlive
  exact ⟨mem_slot hmem, hlive.1⟩

theorem Gone.swapped (h : Gone id w) : Gone id w.swapped := fun e he =>
  h e (w.swapped_entries.subset he)

theorem Gone.toFire (h : Gone id w) : id ∉ (invoked w.toFire).map TimerEntry.id := by
  intro hmem
  obtain ⟨e, he, hid⟩ := List.mem_map.mp hmem
  obtain ⟨he, hlive⟩ := w.toFire_subset (invoked_subset _ he)
  simp [h e he hid] at hlive

theorem tick_events (w : TimerWheel) :
    w.tick.events = (w.swapped.runCallbacks w.toFire).events := by
  unfold tick
  by_cases hthrew : (w.swapped.runCallbacks w.toFire).threw <;> simp [hthrew]

theorem tick_entries (w : TimerWheel) :
    w.tick.wheel.entries = (w.swapped.runCallbacks w.toFire).wheel.entries := by
  by_cases hthrew : (w.swapped.runCallbacks w.toFire).threw
  · simp [tick, hthrew]
  · simp [tick, hthrew, advance, entries]

theorem Mute.congr (h : Mute id t w) (hw : w'.entries = w.entries) : Mute id t w' :=
  ⟨h.1, h.2.imp_right fun hgone e he => hgone e (hw ▸ he)⟩

theorem Gone.step (hw : w.Valid) (h : Gone id w) (op : Op) :
    Mute id (w.step op).2 (w.step op).1 := by
  cases op with
  | call c => exact h.call hw c
  | tick =>
    have hran := h.swapped.runCallbacks hw.swapped h.toFire
    rw [TimerWheel.step, tick_events]
    exact hran.congr w.tick_entries

theorem Gone.run (hw : w.Valid) (h : Gone id w) (ops : List Op) :
    Mute id (w.run ops).2 (w.run ops).1 := by
  induction ops generalizing w with
  | nil => exact mute_nil h
  | cons op ops ih => exact (h.step hw op).append fun hgone => ih (hw.step op) hgone

/-- The steps of a run that keep cancelled timers silent. -/
def StepInTime (w : TimerWheel) : Op → Prop
  | .call _ => True
  | .tick => w.CancelsInTime

theorem orderly_step (hw : w.Valid) {op : Op} (h : w.StepInTime op) :
    Orderly (w.step op).2 (w.step op).1 := by
  cases op with
  | call c => exact orderly_call hw c
  | tick =>
    have hran := orderly_runCallbacks hw.swapped h
    rw [step, tick_events]
    exact fun pre id post hsplit => (hran pre id post hsplit).congr w.tick_entries

theorem stepInTime_of_quiet (hw : w.Valid) {op : Op} (h : Quiet (w.step op).2) :
    w.StepInTime op := by
  cases op with
  | call c => trivial
  | tick =>
    rw [step, tick_events] at h
    refine pairwise_of_quiet w.nextId (show w.nextId ≤ w.swapped.nextId from le_rfl)
      (fun e he => ?_) h
    exact hw.issued e (w.toFire_subset he).1

/-- **When cancelled timers stay silent.** Along a run no callback is invoked after its timer
was cancelled exactly when, at every tick, no callback cancels a timer that the same tick runs
after it. -/
theorem quiet_run_iff (hw : w.Valid) (ops : List Op) :
    Quiet (w.run ops).2 ↔ Ledger.Along (fun w op => (w.step op).1) StepInTime w ops := by
  constructor
  · intro h
    induction ops generalizing w with
    | nil => trivial
    | cons op ops ih =>
      refine ⟨stepInTime_of_quiet hw ?_, ih (hw.step op) ?_⟩
      · exact Quiet.within [] _ (by simpa [run] using h)
      · exact Quiet.within _ [] (by simpa [run] using h)
  · intro h
    have horderly : Orderly (w.run ops).2 (w.run ops).1 := by
      induction ops generalizing w with
      | nil => exact orderly_nil w
      | cons op ops ih =>
        exact (orderly_step hw h.1).append (ih (hw.step op) h.2) fun _ _ hgone =>
          hgone.run (hw.step op) ops
    exact horderly.quiet

/-- Two timers of one tick, the callback of the first cancelling the second. -/
def cancelLater : List Op :=
  [.call (.addTimer 100 (some { calls := [.cancelTimer 1] })),
    .call (.addTimer 100 (some { calls := [] })), .tick, .tick]

/-- The second timer runs although it is cancelled. -/
theorem not_quiet_cancelLater :
    (new 8 100).Valid ∧ ¬ Quiet ((new 8 100).run cancelLater).2 := by
  refine ⟨new_valid (by decide) 100, fun h => ?_⟩
  have hrun : ((new 8 100).run cancelLater).2 =
      [.added 0, .added 1, .fired 0] ++ .cancelled 1 :: [.fired 1] := by decide
  have hmem := h _ 1 _ hrun [] [] rfl
  simp at hmem

theorem quiet_run_iff_cancelLater :
    Quiet ((new 8 100).run cancelLater).2 ↔
      Ledger.Along (fun w op => (w.step op).1) StepInTime (new 8 100) cancelLater :=
  quiet_run_iff (new_valid (by decide) 100) cancelLater

end XNetty.Event.TimerWheel
