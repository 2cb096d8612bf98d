import Mathlib.Tactic

/-!
# The timer wheel

Timers are kept in the slot their expiry tick falls into. A tick takes the due entries out of
the current slot and then runs their callbacks, which may call back into the wheel. Ids and
ticks are 64-bit counters in the source; ids are not reused here.

## Main definitions

* `TimerWheel` — the slots with their entries.
* `Call`, `Callback` — what a callback does when it runs.
* `TimerWheel.tick` — one turn of the wheel, with the trace of what was called and run.
* `TimerWheel.Valid` — every entry has an id of its own.
-/

namespace XNetty.Event

/-- A callback makes some calls and may then throw. -/
structure Body (κ : Type) where
  calls : List κ
  throws : Bool := false

/-- A call of the wheel. An empty `std::function` is `none`. -/
inductive Call where
  | addTimer (delayMs : Nat) (callback : Option (Body Call))
  | cancelTimer (timerId : Nat)

abbrev Callback := Body Call

structure TimerEntry where
  id : Nat
  expirationTick : Nat
  callback : Option Callback
  canceled : Bool := false

structure TimerWheel where
  numSlots : Nat
  tickMs : Nat
  currentTick : Nat
  nextId : Nat
  slots : List (List TimerEntry)

/-- What a run of the wheel shows: calls that returned, and callbacks that were invoked. -/
inductive TimerEvent where
  | added (timerId : Nat)
  | cancelled (timerId : Nat)
  | fired (timerId : Nat)
  deriving DecidableEq, Repr

namespace TimerWheel

/-- `TimerWheel(numSlots, tickMs)` -/
def new (numSlots : Nat := 256) (tickMs : Nat := 1000) : TimerWheel where
  numSlots
  tickMs
  currentTick := 0
  nextId := 0
  slots := .replicate numSlots []

def slot (w : TimerWheel) (s : Nat) : List TimerEntry := w.slots[s]?.getD []

def entries (w : TimerWheel) : List TimerEntry := w.slots.flatten

/-- The ticks of a delay, in 64-bit arithmetic. -/
def ticksOf (tickMs delayMs : Nat) : Nat := (delayMs + tickMs - 1) % 2 ^ 64 / tickMs

def addTimer (w : TimerWheel) (delayMs : Nat) (callback : Option Callback) : TimerWheel × Nat :=
  let expireTick := (w.currentTick + ticksOf w.tickMs delayMs) % 2 ^ 64
  let entry := { id := w.nextId, expirationTick := expireTick, callback }
  ({ w with
      nextId := w.nextId + 1
      slots := w.slots.modify (expireTick % w.numSlots) (· ++ [entry]) }, w.nextId)

/-- The scan of one slot, `none` when it has no entry of that id. -/
def cancelEntry (timerId : Nat) : List TimerEntry → Option (List TimerEntry)
  | [] => none
  | entry :: entries =>
    if entry.id = timerId then some ({ entry with canceled := true } :: entries)
    else (cancelEntry timerId entries).map (entry :: ·)

def cancelSlots (timerId : Nat) : List (List TimerEntry) → List (List TimerEntry)
  | [] => []
  | slot :: slots =>
    match cancelEntry timerId slot with
    | some slot => slot :: slots
    | none => slot :: cancelSlots timerId slots

def cancelTimer (w : TimerWheel) (timerId : Nat) : TimerWheel :=
  { w with slots := cancelSlots timerId w.slots }

def call (w : TimerWheel) : Call → TimerWheel × TimerEvent
  | .addTimer delayMs callback => ((w.addTimer delayMs callback).1, .added w.nextId)
  | .cancelTimer timerId => (w.cancelTimer timerId, .cancelled timerId)

def callAll (w : TimerWheel) : List Call → TimerWheel × List TimerEvent
  | [] => (w, [])
  | c :: cs =>
    let rest := (w.call c).1.callAll cs
    (rest.1, (w.call c).2 :: rest.2)

/-- The outcome of running callbacks. -/
structure Outcome where
  wheel : TimerWheel
  events : List TimerEvent
  threw : Bool

/-- The loop over `toFire`: an entry taken out of its slot runs whatever is cancelled
meanwhile, and an exception leaves the loop. -/
def runCallbacks (w : TimerWheel) : List TimerEntry → Outcome
  | [] => { wheel := w, events := [], threw := false }
  | entry :: toFire =>
    match entry.callback with
    | none => w.runCallbacks toFire
    | some callback =>
      let called := w.callAll callback.calls
      if callback.throws then
        { wheel := called.1, events := .fired entry.id :: called.2, threw := true }
      else
        let rest := called.1.runCallbacks toFire
        { rest with events := .fired entry.id :: called.2 ++ rest.events }

/-- The slot of the current tick. -/
def currentSlot (w : TimerWheel) : Nat := w.currentTick % w.numSlots

/-- The entries of the current slot that this tick runs. -/
def toFire (w : TimerWheel) : List TimerEntry :=
  (w.slot w.currentSlot).filter fun e => !e.canceled && e.expirationTick ≤ w.currentTick

/-- The entries of the current slot that stay for a later round. -/
def keep (w : TimerWheel) : List TimerEntry :=
  (w.slot w.currentSlot).filter fun e => !e.canceled && w.currentTick < e.expirationTick

/-- `entries.swap(keep)` -/
def swapped (w : TimerWheel) : TimerWheel :=
  { w with slots := w.slots.set w.currentSlot w.keep }

/-- `currentTick_++` -/
def advance (w : TimerWheel) : TimerWheel :=
  { w with currentTick := (w.currentTick + 1) % 2 ^ 64 }

def tick (w : TimerWheel) : Outcome :=
  let ran := w.swapped.runCallbacks w.toFire
  if ran.threw then ran
  else { ran with wheel := ran.wheel.advance }

/-- What the owner of the wheel does to it. -/
inductive Op where
  | call (c : Call)
  | tick

def step (w : TimerWheel) : Op → TimerWheel × List TimerEvent
  | .call c => ((w.call c).1, [(w.call c).2])
  | .tick => (w.tick.wheel, w.tick.events)

def run (w : TimerWheel) : List Op → TimerWheel × List TimerEvent
  | [] => (w, [])
  | op :: ops =>
    let rest := (w.step op).1.run ops
    (rest.1, (w.step op).2 ++ rest.2)

/-! ### Slots -/

/-- Every entry is of an issued id, and no two entries are of one id. -/
structure Valid (w : TimerWheel) : Prop where
  numSlots_pos : 0 < w.numSlots
  slots_length : w.slots.length = w.numSlots
  issued : ∀ e ∈ w.entries, e.id < w.nextId
  distinct : (w.entries.map TimerEntry.id).Nodup

theorem mem_slot {w : TimerWheel} {s : Nat} {e : TimerEntry} (h : e ∈ w.slot s) :
    e ∈ w.entries := by
  unfold slot at h
  cases hs : w.slots[s]? with
  | none => simp [hs] at h
  | some l =>
    rw [hs] at h
    exact List.mem_flatten.mpr ⟨l, List.mem_of_getElem? hs, h⟩

theorem new_valid {numSlots : Nat} (h : 0 < numSlots) (tickMs : Nat) :
    (new numSlots tickMs).Valid where
  numSlots_pos := h
  slots_length := by simp [new]
  issued := by simp [new, entries]
  distinct := by simp [new, entries]

/-! ### addTimer -/

theorem flatten_modify_append {α : Type*} (x : α) {slots : List (List α)} {s : Nat}
    (hs : s < slots.length) :
    (slots.modify s (· ++ [x])).flatten.Perm (x :: slots.flatten) := by
  induction slots generalizing s with
  | nil => simp at hs
  | cons l slots ih =>
    cases s with
    | zero => simp
    | succ s =>
      have hs : s < slots.length := by simpa using hs
      simpa using ((ih hs).append_left l).trans List.perm_middle

/-- The entry that `addTimer` pushes. -/
def newEntry (w : TimerWheel) (delayMs : Nat) (callback : Option Callback) : TimerEntry where
  id := w.nextId
  expirationTick := (w.currentTick + ticksOf w.tickMs delayMs) % 2 ^ 64
  callback

theorem addTimer_entries {w : TimerWheel} (h : w.Valid) (delayMs : Nat)
    (callback : Option Callback) :
    (w.addTimer delayMs callback).1.entries.Perm (w.newEntry delayMs callback :: w.entries) := by
  refine flatten_modify_append _ ?_
  rw [h.slots_length]
  exact Nat.mod_lt _ h.numSlots_pos

theorem Valid.addTimer {w : TimerWheel} (h : w.Valid) (delayMs : Nat)
    (callback : Option Callback) : (w.addTimer delayMs callback).1.Valid where
  numSlots_pos := h.numSlots_pos
  slots_length := by simp [TimerWheel.addTimer, h.slots_length]
  issued := by
    intro e he
    rcases List.mem_cons.mp ((addTimer_entries h delayMs callback).mem_iff.mp he) with rfl | he
    · exact Nat.lt_succ_self _
    · exact Nat.lt_succ_of_lt (h.issued e he)
  distinct := by
    rw [((addTimer_entries h delayMs callback).map _).nodup_iff, List.map_cons, List.nodup_cons]
    refine ⟨fun hmem => ?_, h.distinct⟩
    obtain ⟨e, he, hid⟩ := List.mem_map.mp hmem
    exact absurd (h.issued e he) (by simp [hid, newEntry])

theorem slot_addTimer (w : TimerWheel) (delayMs : Nat) (callback : Option Callback) {s : Nat}
    (hs : s < w.slots.length) :
    (w.addTimer delayMs callback).1.slot s =
      if (w.newEntry delayMs callback).expirationTick % w.numSlots = s
      then w.slot s ++ [w.newEntry delayMs callback] else w.slot s := by
  simp only [slot, addTimer, List.getElem?_modify, newEntry]
  split <;> simp_all

/-! ### cancelTimer -/

/-- What cancelling does to the entry of that id. -/
def marked (timerId : Nat) (e : TimerEntry) : TimerEntry :=
  if e.id = timerId then { e with canceled := true } else e

@[simp] theorem marked_id (timerId : Nat) (e : TimerEntry) : (marked timerId e).id = e.id := by
  unfold marked; split <;> rfl

theorem marked_of_ne {timerId : Nat} {e : TimerEntry} (h : e.id ≠ timerId) :
    marked timerId e = e := if_neg h

theorem map_marked_eq {timerId : Nat} {l : List TimerEntry} (h : timerId ∉ l.map TimerEntry.id) :
    l.map (marked timerId) = l := by
  refine (List.map_congr_left fun e he => ?_).trans (List.map_id l)
  exact marked_of_ne fun hid => h (List.mem_map.mpr ⟨e, he, hid⟩)

theorem cancelEntry_eq_none {timerId : Nat} {l : List TimerEntry} :
    cancelEntry timerId l = none ↔ timerId ∉ l.map TimerEntry.id := by
  induction l with
  | nil => simp [cancelEntry]
  | cons e l ih =>
    by_cases he : e.id = timerId
    · simp [cancelEntry, he]
    · simp [cancelEntry, he, ih, Ne.symm he]

theorem cancelEntry_eq_some {timerId : Nat} {l l' : List TimerEntry}
    (hd : (l.map TimerEntry.id).Nodup) (h : cancelEntry timerId l = some l') :
    l' = l.map (marked timerId) := by
  induction l generalizing l' with
  | nil => simp [cancelEntry] at h
  | cons e l ih =>
    obtain ⟨hhead, htail⟩ := List.nodup_cons.mp hd
    by_cases he : e.id = timerId
    · obtain rfl : { e with canceled := true } :: l = l' := by simpa [cancelEntry, he] using h
      rw [List.map_cons, map_marked_eq (he ▸ hhead), marked, if_pos he]
    · simp only [cancelEntry, he, if_false, Option.map_eq_some_iff] at h
      obtain ⟨l'', h, rfl⟩ := h
      rw [ih htail h, List.map_cons, marked_of_ne he]

/-- With ids of their own, cancelling marks all entries of the id. -/
theorem cancelSlots_eq_map {timerId : Nat} {slots : List (List TimerEntry)}
    (hd : (slots.flatten.map TimerEntry.id).Nodup) :
    cancelSlots timerId slots = slots.map (·.map (marked timerId)) := by
  induction slots with
  | nil => rfl
  | cons l slots ih =>
    rw [List.flatten_cons, List.map_append, List.nodup_append] at hd
    obtain ⟨hl, hslots, hdisj⟩ := hd
    rw [cancelSlots, List.map_cons]
    cases h : cancelEntry timerId l with
    | none =>
      rw [map_marked_eq (cancelEntry_eq_none.mp h), ih hslots]
    | some l' =>
      have hmem : timerId ∈ l.map TimerEntry.id := by
        by_contra hnot
        simp [cancelEntry_eq_none.mpr hnot] at h
      have hrest : ∀ m ∈ slots, m.map (marked timerId) = m := by
        intro m hm
        refine map_marked_eq fun hin => hdisj _ hmem _ ?_ rfl
        obtain ⟨e, he, hid⟩ := List.mem_map.mp hin
        exact List.mem_map.mpr ⟨e, List.mem_flatten.mpr ⟨m, hm, he⟩, hid⟩
      simp only [cancelEntry_eq_some hl h]
      rw [List.map_congr_left hrest, List.map_id']

theorem cancelTimer_entries {w : TimerWheel} (h : w.Valid) (timerId : Nat) :
    (w.cancelTimer timerId).entries = w.entries.map (marked timerId) := by
  rw [entries, cancelTimer, cancelSlots_eq_map h.distinct, entries, List.map_flatten]

theorem Valid.cancelTimer {w : TimerWheel} (h : w.Valid) (timerId : Nat) :
    (w.cancelTimer timerId).Valid where
  numSlots_pos := h.numSlots_pos
  slots_length := by
    simpa [TimerWheel.cancelTimer, cancelSlots_eq_map h.distinct] using h.slots_length
  issued := by
    intro e he
    rw [cancelTimer_entries h] at he
    obtain ⟨f, hf, rfl⟩ := List.mem_map.mp he
    simpa [TimerWheel.cancelTimer] using h.issued f hf
  distinct := by
    rw [cancelTimer_entries h, List.map_map]
    simpa [Function.comp_def] using h.distinct

theorem slot_cancelTimer {w : TimerWheel} (h : w.Valid) (timerId s : Nat) :
    (w.cancelTimer timerId).slot s = (w.slot s).map (marked timerId) := by
  simp only [slot, cancelTimer, cancelSlots_eq_map h.distinct, List.getElem?_map]
  cases w.slots[s]? <;> rfl

/-! ### Calls and ticks -/

@[simp] theorem call_addTimer (w : TimerWheel) (delayMs : Nat) (callback : Option Callback) :
    w.call (.addTimer delayMs callback) = ((w.addTimer delayMs callback).1, .added w.nextId) := rfl

@[simp] theorem call_cancelTimer (w : TimerWheel) (timerId : Nat) :
    w.call (.cancelTimer timerId) = (w.cancelTimer timerId, .cancelled timerId) := rfl

theorem Valid.call {w : TimerWheel} (h : w.Valid) (c : Call) : (w.call c).1.Valid := by
  cases c with
  | addTimer delayMs callback => exact h.addTimer delayMs callback
  | cancelTimer timerId => exact h.cancelTimer timerId

theorem Valid.callAll {w : TimerWheel} (h : w.Valid) (cs : List Call) :
    (w.callAll cs).1.Valid := by
  induction cs generalizing w with
  | nil => exact h
  | cons c cs ih => exact ih (h.call c)

theorem Valid.runCallbacks {w : TimerWheel} (h : w.Valid) (l : List TimerEntry) :
    (w.runCallbacks l).wheel.Valid := by
  induction l generalizing w with
  | nil => exact h
  | cons entry l ih =>
    unfold TimerWheel.runCallbacks
    cases entry.callback with
    | none => exact ih h
    | some callback =>
      by_cases hthrows : callback.throws
      · simpa [hthrows] using h.callAll callback.calls
      · simpa [hthrows] using ih (h.callAll callback.calls)

theorem flatten_set_sublist {α : Type*} {slots : List (List α)} {s : Nat} {l : List α}
    (hl : l.Sublist (slots[s]?.getD [])) : (slots.set s l).flatten.Sublist slots.flatten := by
  induction slots generalizing s with
  | nil => simp
  | cons m slots ih =>
    cases s with
    | zero => exact hl.append (List.Sublist.refl _)
    | succ s => exact (List.Sublist.refl m).append (ih (by simpa using hl))

theorem swapped_entries (w : TimerWheel) : w.swapped.entries.Sublist w.entries :=
  flatten_set_sublist List.filter_sublist

theorem Valid.swapped {w : TimerWheel} (h : w.Valid) : w.swapped.Valid where
  numSlots_pos := h.numSlots_pos
  slots_length := by simpa [TimerWheel.swapped] using h.slots_length
  issued e he := h.issued e (w.swapped_entries.subset he)
  distinct := h.distinct.sublist (w.swapped_entries.map _)

theorem slot_swapped {w : TimerWheel} (h : w.Valid) (s : Nat) :
    w.swapped.slot s = if s = w.currentSlot then w.keep else w.slot s := by
  have hlt : w.currentSlot < w.slots.length := by
    rw [h.slots_length]
    exact Nat.mod_lt _ h.numSlots_pos
  by_cases hs : w.currentSlot = s
  · subst hs
    simp [slot, swapped, hlt]
  · simp [slot, swapped, hs, Ne.symm hs]

theorem Valid.advance {w : TimerWheel} (h : w.Valid) : w.advance.Valid :=
  ⟨h.numSlots_pos, h.slots_length, h.issued, h.distinct⟩

theorem Valid.tick {w : TimerWheel} (h : w.Valid) : w.tick.wheel.Valid := by
  have hran := h.swapped.runCallbacks w.toFire
  by_cases hthrew : (w.swapped.runCallbacks w.toFire).threw
  · simpa [TimerWheel.tick, hthrew] using hran
  · simpa [TimerWheel.tick, hthrew] using hran.advance

/-! ### What calls and callbacks leave alone -/

/-- The wheel has not turned. -/
structure Still (w w' : TimerWheel) : Prop where
  numSlots : w'.numSlots = w.numSlots
  tickMs : w'.tickMs = w.tickMs
  currentTick : w'.currentTick = w.currentTick

theorem Still.refl (w : TimerWheel) : Still w w := ⟨rfl, rfl, rfl⟩

theorem Still.trans {w w' w'' : TimerWheel} (h : Still w w') (h' : Still w' w'') : Still w w'' :=
  ⟨h'.numSlots.trans h.numSlots, h'.tickMs.trans h.tickMs, h'.currentTick.trans h.currentTick⟩

theorem still_call (w : TimerWheel) (c : Call) : Still w (w.call c).1 := by
  cases c <;> exact ⟨rfl, rfl, rfl⟩

theorem still_callAll (w : TimerWheel) (cs : List Call) : Still w (w.callAll cs).1 := by
  induction cs generalizing w with
  | nil => exact .refl w
  | cons c cs ih => exact (w.still_call c).trans (ih _)

theorem still_runCallbacks (w : TimerWheel) (l : List TimerEntry) :
    Still w (w.runCallbacks l).wheel := by
  induction l generalizing w with
  | nil => exact .refl w
  | cons entry l ih =>
    unfold runCallbacks
    cases entry.callback with
    | none => exact ih w
    | some callback =>
      have hcalled := w.still_callAll callback.calls
      by_cases hthrows : callback.throws
      · simpa [hthrows] using hcalled
      · simpa [hthrows] using hcalled.trans (ih _)

theorem still_swapped (w : TimerWheel) : Still w w.swapped := ⟨rfl, rfl, rfl⟩

/-- A tick counts unless an exception leaves it. -/
theorem tick_currentTick (w : TimerWheel) :
    w.tick.wheel.tickMs = w.tickMs ∧ w.tick.wheel.currentTick =
      if w.tick.threw then w.currentTick else (w.currentTick + 1) % 2 ^ 64 := by
  have hran := w.still_swapped.trans (w.swapped.still_runCallbacks w.toFire)
  by_cases hthrew : (w.swapped.runCallbacks w.toFire).threw
  · simpa [tick, hthrew] using ⟨hran.tickMs, hran.currentTick⟩
  · simpa [tick, hthrew, advance] using
      ⟨hran.tickMs, congrArg (fun n => (n + 1) % 2 ^ 64) hran.currentTick⟩

/-! ### Runs -/

theorem Valid.step {w : TimerWheel} (h : w.Valid) (op : Op) : (w.step op).1.Valid := by
  cases op with
  | call c => exact h.call c
  | tick => exact h.tick

theorem Valid.run {w : TimerWheel} (h : w.Valid) (ops : List Op) : (w.run ops).1.Valid := by
  induction ops generalizing w with
  | nil => exact h
  | cons op ops ih => exact ih (h.step op)

end TimerWheel

end XNetty.Event
