import XNetty.Event.TimerCancel

/-!
# A timer runs once

A tick takes its due entries out of the slots before it runs the first of them. What it comes to
run is run once, and what an exception keeps it from is never run.

## Main definitions

* `Spent` — a timer that has no entry any more.
* `count_fired_due` — how often a due timer is run, from its tick on.
-/

namespace XNetty.Event.TimerWheel

variable {id : Nat} {w : TimerWheel}

/-! ### Entries and slots -/

theorem slot_sublist (w : TimerWheel) (s : Nat) : (w.slot s).Sublist w.entries := by
  unfold slot
  cases hs : w.slots[s]? with
  | none => exact List.nil_sublist _
  | some l => exact List.sublist_flatten_of_mem (List.mem_of_getElem? hs)

theorem Valid.eq_of_id (hw : w.Valid) {e e' : TimerEntry} (he : e ∈ w.entries)
    (he' : e' ∈ w.entries) (hid : e.id = e'.id) : e = e' :=
  List.inj_on_of_nodup_map hw.distinct he he' hid

theorem flatten_set_subperm {α : Type*} {slots : List (List α)} {s : Nat} {l out : List α}
    (hs : s < slots.length) (h : (out ++ l).Subperm (slots[s]?.getD [])) :
    (out ++ (slots.set s l).flatten).Subperm slots.flatten := by
  induction slots generalizing s with
  | nil => simp at hs
  | cons m slots ih =>
    cases s with
    | zero => simpa using (List.subperm_append_right slots.flatten).mpr h
    | succ s =>
      have hrest := ih (by simpa using hs) (by simpa using h)
      have hswap : (out ++ (m ++ (slots.set s l).flatten)).Perm
          (m ++ (out ++ (slots.set s l).flatten)) := by
        simpa [← List.append_assoc] using List.perm_append_comm.append_right _
      exact hswap.subperm.trans ((List.subperm_append_left m).mpr hrest)

/-- A tick divides the entries: what it takes out is not left in the slots. -/
theorem toFire_swapped_subperm (hw : w.Valid) :
    (w.toFire ++ w.swapped.entries).Subperm w.entries := by
  refine flatten_set_subperm (hw.slots_length ▸ Nat.mod_lt _ hw.numSlots_pos) ?_
  have hkeep : w.keep.Sublist ((w.slot w.currentSlot).filter fun e =>
      !(!e.canceled && decide (e.expirationTick ≤ w.currentTick))) := by
    refine List.monotone_filter_right _ fun e => ?_
    simp only [Bool.and_eq_true, Bool.not_and, Bool.not_not, Bool.or_eq_true, Bool.not_eq_true',
      decide_eq_true_eq, decide_eq_false_iff_not]
    exact fun h => .inr (Nat.not_le_of_lt h.2)
  exact ((List.Sublist.refl w.toFire).append hkeep).subperm.trans
    (List.filter_append_perm _ _).subperm

theorem toFire_nodup (hw : w.Valid) : (w.toFire.map TimerEntry.id).Nodup :=
  hw.distinct.sublist ((List.filter_sublist.trans (w.slot_sublist _)).map _)

theorem gone_of_toFire (hw : w.Valid) {e : TimerEntry} (he : e ∈ w.toFire) :
    Gone e.id w.swapped := by
  intro e' he' hid
  have hnodup : ((w.toFire ++ w.swapped.entries).map TimerEntry.id).Nodup := by
    obtain ⟨l, hperm, hsub⟩ := toFire_swapped_subperm hw
    exact ((hperm.map _).nodup_iff).mp (hw.distinct.sublist (hsub.map _))
  rw [List.map_append, List.nodup_append] at hnodup
  exact absurd hid.symm (hnodup.2.2 _ (List.mem_map_of_mem he) _ (List.mem_map_of_mem he'))

/-! ### Timers without an entry -/

/-- The id was given out, and nothing in the slots can run its callback. -/
def Spent (id : Nat) (w : TimerWheel) : Prop := Gone id w ∧ id < w.nextId

theorem Spent.call (hw : w.Valid) (h : Spent id w) (c : Call) : Spent id (w.call c).1 := by
  have hgone := (h.1.call hw c).2
  cases c with
  | addTimer delayMs callback =>
    have hnew : TimerEvent.added id ∉ [(w.call (.addTimer delayMs callback)).2] := by
      simpa [TimerWheel.call] using h.2.ne
    exact ⟨hgone.resolve_left hnew, Nat.lt_succ_of_lt h.2⟩
  | cancelTimer timerId => exact ⟨hgone.resolve_left (by simp [TimerWheel.call]), h.2⟩

theorem Spent.callAll (hw : w.Valid) (h : Spent id w) (cs : List Call) :
    Spent id (w.callAll cs).1 := by
  induction cs generalizing w with
  | nil => exact h
  | cons c cs ih => exact ih (hw.call c) (h.call hw c)

theorem Spent.runCallbacks (hw : w.Valid) (h : Spent id w) (l : List TimerEntry) :
    Spent id (w.runCallbacks l).wheel := by
  induction l generalizing w with
  | nil => exact h
  | cons entry l ih =>
    rw [runCallbacks_cons]
    cases entry.callback with
    | none => exact ih hw h
    | some callback =>
      have hcalled := h.callAll hw callback.calls
      by_cases hthrows : callback.throws
      · simpa [hthrows] using hcalled
      · simpa [hthrows] using ih (hw.callAll _) hcalled

/-- A tick leaves no entry of a timer that had none in the slots when its callbacks began. -/
theorem Spent.tick (hw : w.Valid) (h : Spent id w.swapped) : Spent id w.tick.wheel := by
  have hran := h.runCallbacks hw.swapped w.toFire
  refine ⟨fun e he => hran.1 e (w.tick_entries ▸ he), ?_⟩
  cases hthrew : (w.swapped.runCallbacks w.toFire).threw with
  | true => simpa [TimerWheel.tick, hthrew] using hran.2
  | false => simpa [TimerWheel.tick, hthrew, advance] using hran.2

/-! ### What is run -/

theorem callAll_count_fired (w : TimerWheel) (cs : List Call) (id : Nat) :
    (w.callAll cs).2.count (.fired id) = 0 := by
  induction cs generalizing w with
  | nil => rfl
  | cons c cs ih => cases c <;> simpa [TimerWheel.callAll, TimerWheel.call] using ih _

theorem runCallbacks_count_fired (w : TimerWheel) (l : List TimerEntry) (id : Nat) :
    (w.runCallbacks l).events.count (.fired id) = ((invoked l).map TimerEntry.id).count id := by
  induction l generalizing w with
  | nil => rfl
  | cons entry l ih =>
    rw [runCallbacks_cons]
    cases hcb : entry.callback with
    | none => simpa [invoked, hcb] using ih w
    | some callback =>
      by_cases hthrows : callback.throws
      · simp [invoked, hcb, hthrows, callAll_count_fired, List.count_cons]
      · simp [invoked, hcb, hthrows, callAll_count_fired, List.count_cons, ih, add_comm]

theorem tick_threw (w : TimerWheel) :
    w.tick.threw = (w.swapped.runCallbacks w.toFire).threw := by
  unfold tick
  by_cases hthrew : (w.swapped.runCallbacks w.toFire).threw <;> simp [hthrew]

theorem tick_count_fired (w : TimerWheel) (id : Nat) :
    w.tick.events.count (.fired id) = ((invoked w.toFire).map TimerEntry.id).count id := by
  rw [tick_events, runCallbacks_count_fired]

/-- Nothing runs the callback of a timer without an entry. -/
theorem Spent.run (hw : w.Valid) (h : Spent id w) (ops : List Op) :
    (w.run ops).2.count (.fired id) = 0 := by
  induction ops generalizing w with
  | nil => rfl
  | cons op ops ih =>
    rw [TimerWheel.run, List.count_append]
    cases op with
    | call c =>
      have hnone : [(w.call c).2].count (.fired id) = 0 := by cases c <;> simp [TimerWheel.call]
      exact Nat.add_eq_zero_iff.mpr ⟨hnone, ih (hw.call c) (h.call hw c)⟩
    | tick =>
      refine Nat.add_eq_zero_iff.mpr ⟨?_, ih hw.tick (Spent.tick hw ⟨h.1.swapped, h.2⟩)⟩
      exact (w.tick_count_fired id).trans (List.count_eq_zero.mpr h.1.toFire)

/-- After its tick, a due timer has no entry. -/
theorem spent_of_toFire (hw : w.Valid) {e : TimerEntry} (he : e ∈ w.toFire) :
    Spent e.id w.tick.wheel :=
  Spent.tick hw ⟨gone_of_toFire hw he, hw.issued e (w.toFire_subset he).1⟩

theorem invoked_sublist (l : List TimerEntry) : (invoked l).Sublist l := by
  induction l with
  | nil => exact .slnil
  | cons entry l ih =>
    unfold invoked
    cases entry.callback with
    | none => exact ih.cons _
    | some callback =>
      dsimp only
      split
      · exact (List.nil_sublist l).cons_cons _
      · exact ih.cons_cons _

/-- **How often a due timer is run.** Whatever is done to the wheel from its tick on, once if the
tick comes to it, and never if an exception ends the tick before. -/
theorem count_fired_due (hw : w.Valid) {e : TimerEntry} (he : e ∈ w.toFire) (ops : List Op) :
    (w.run (.tick :: ops)).2.count (.fired e.id) = 1 ↔ e ∈ invoked w.toFire := by
  have hlater := (spent_of_toFire hw he).run hw.tick ops
  have hcount : (w.run (.tick :: ops)).2.count (.fired e.id) =
      ((invoked w.toFire).map TimerEntry.id).count e.id := by
    rw [TimerWheel.run, List.count_append]
    change w.tick.events.count _ + (w.tick.wheel.run ops).2.count _ = _
    rw [hlater, add_zero, tick_count_fired]
  have hnodup := (toFire_nodup hw).sublist ((invoked_sublist _).map _)
  rw [hcount]
  constructor
  · intro hone
    obtain ⟨e', he', hid⟩ := List.mem_map.mp (List.count_pos_iff.mp (hone ▸ Nat.one_pos))
    have heq := hw.eq_of_id (w.toFire_subset (invoked_subset _ he')).1 (w.toFire_subset he).1 hid
    exact heq ▸ he'
  · exact fun hmem => List.count_eq_one_of_mem hnodup (List.mem_map_of_mem hmem)

end XNetty.Event.TimerWheel
