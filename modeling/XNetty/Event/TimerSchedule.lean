import Mathlib.Algebra.Order.Floor.Div
import XNetty.Lib.Agenda
import XNetty.Event.TimerWheel

/-!
# The timer wheel keeps its agenda

Called from outside its callbacks, the wheel is an agenda cut into shards: the live entries of
a slot are the agenda's items whose expiry tick falls into the slot, in the order they were
added. So each tick runs what the history of calls scheduled for it, and nothing else.

## Main definitions

* `Tracks` — the wheel holds an agenda.
* `tick_exact` — which callbacks a tick runs, and in which order.
-/

namespace XNetty.Event.TimerWheel

/-- A call whose callback leaves the wheel alone. -/
def Op.outside : Op → Prop
  | .call (.addTimer _ callback) => callback = some { calls := [] }
  | _ => True

/-- The operation on the agenda, a delay being rounded up to whole ticks. -/
def Op.toAgenda (tickMs : Nat) : Op → Agenda.Op
  | .call (.addTimer delayMs _) => .add (delayMs ⌈/⌉ tickMs)
  | .call (.cancelTimer timerId) => .cancel timerId
  | .tick => .tick

/-- How many `tick` calls a history holds. -/
def ticks (ops : List Op) : Nat := ops.countP fun | .tick => true | _ => false

/-- How many `addTimer` calls a history holds. -/
def adds (ops : List Op) : Nat := ops.countP fun | .call (.addTimer _ _) => true | _ => false

/-- Neither the rounding of a delay nor its expiry tick leaves 64 bits. -/
def NoWrap (tickMs : Nat) (ops : List Op) : Prop :=
  ∀ pre delayMs callback post, ops = pre ++ .call (.addTimer delayMs callback) :: post →
    delayMs + tickMs - 1 < 2 ^ 64 ∧ ticks pre + delayMs ⌈/⌉ tickMs < 2 ^ 64

/-! ### Live entries -/

/-- The entries of a slot that were not cancelled, as items of the agenda. -/
def live (l : List TimerEntry) : List (Nat × Nat) :=
  (l.filter fun e => !e.canceled).map fun e => (e.id, e.expirationTick)

@[simp] theorem live_append (l l' : List TimerEntry) : live (l ++ l') = live l ++ live l' := by
  simp [live]

theorem live_newEntry (w : TimerWheel) (delayMs : Nat) (callback : Option Callback) :
    live [w.newEntry delayMs callback] =
      [(w.nextId, (w.newEntry delayMs callback).expirationTick)] := rfl

theorem live_map_marked (timerId : Nat) (l : List TimerEntry) :
    live (l.map (marked timerId)) = (live l).filter fun p => p.1 ≠ timerId := by
  induction l with
  | nil => rfl
  | cons e l ih =>
    by_cases he : e.id = timerId <;> cases hc : e.canceled <;>
      simp_all [live, marked]

theorem live_keep (w : TimerWheel) :
    live w.keep = (live (w.slot w.currentSlot)).filter fun p => w.currentTick < p.2 := by
  simp [live, keep, List.filter_map, List.filter_filter, Function.comp_def, Bool.and_comm]

theorem toFire_ids (w : TimerWheel) :
    w.toFire.map TimerEntry.id =
      ((live (w.slot w.currentSlot)).filter fun p => p.2 ≤ w.currentTick).map Prod.fst := by
  simp [live, toFire, List.filter_map, List.filter_filter, Function.comp_def, Bool.and_comm]

theorem runCallbacks_of_quiet (w : TimerWheel) {l : List TimerEntry}
    (h : ∀ e ∈ l, e.callback = some { calls := [] }) :
    w.runCallbacks l =
      { wheel := w, events := l.map fun e => .fired e.id, threw := false } := by
  induction l with
  | nil => rfl
  | cons e l ih =>
    have hrest := ih fun e he => h e (List.mem_cons_of_mem _ he)
    simp [runCallbacks, h e List.mem_cons_self, callAll, hrest]

/-! ### The wheel as an agenda -/

/-- The live entries of every slot are the agenda's shard of that slot. -/
structure Tracks (tickMs : Nat) (w : TimerWheel) (a : Agenda) : Prop where
  valid : w.Valid
  tickMs_eq : w.tickMs = tickMs
  currentTick : w.currentTick = a.now % 2 ^ 64
  nextId : w.nextId = a.nextId
  slot : ∀ s < w.numSlots, live (w.slot s) = a.shard w.numSlots s
  quiet : ∀ e ∈ w.entries, e.callback = some { calls := [] }
  bounded : ∀ p ∈ a.pending, p.2 < 2 ^ 64

variable {tickMs : Nat} {w : TimerWheel} {a : Agenda}

theorem tracks_new {numSlots : Nat} (h : 0 < numSlots) (tickMs : Nat) :
    Tracks tickMs (new numSlots tickMs) {} where
  valid := new_valid h tickMs
  tickMs_eq := rfl
  currentTick := rfl
  nextId := rfl
  slot s hs := by
    have hs : s < numSlots := hs
    simp [new, TimerWheel.slot, live, Agenda.shard, hs]
  quiet := by simp [new, entries]
  bounded := by simp

theorem ticksOf_eq {tickMs delayMs : Nat} (h : delayMs + tickMs - 1 < 2 ^ 64) :
    ticksOf tickMs delayMs = delayMs ⌈/⌉ tickMs := by
  rw [ticksOf, Nat.mod_eq_of_lt h, Nat.ceilDiv_eq_add_pred_div]

theorem Tracks.addTimer (h : Tracks tickMs w a) {delayMs : Nat}
    (hround : delayMs + tickMs - 1 < 2 ^ 64) (hexp : a.now + delayMs ⌈/⌉ tickMs < 2 ^ 64) :
    Tracks tickMs (w.addTimer delayMs (some { calls := [] })).1
      (a.step (.add (delayMs ⌈/⌉ tickMs))) := by
  -- without a wrap the expiry tick of the new entry is the beat of the new item
  have hbeat : (w.newEntry delayMs (some { calls := [] })).expirationTick =
      a.now + delayMs ⌈/⌉ tickMs := by
    have hnow : a.now % 2 ^ 64 = a.now := Nat.mod_eq_of_lt (by omega)
    simp only [newEntry, h.tickMs_eq, ticksOf_eq hround, h.currentTick, hnow]
    exact Nat.mod_eq_of_lt hexp
  refine ⟨h.valid.addTimer _ _, h.tickMs_eq, h.currentTick, congrArg (· + 1) h.nextId, ?_, ?_, ?_⟩
  · intro s hs
    change live _ = (a.step (.add _)).shard w.numSlots s
    rw [slot_addTimer w delayMs _ (h.valid.slots_length ▸ hs), hbeat, Agenda.shard_add,
      ← h.slot s hs]
    split
    · rw [live_append, live_newEntry, hbeat, h.nextId]
    · rfl
  · intro e he
    rcases List.mem_cons.mp ((addTimer_entries h.valid _ _).mem_iff.mp he) with rfl | he
    · rfl
    · exact h.quiet e he
  · intro p hp
    rcases List.mem_append.mp hp with hp | hp
    · exact h.bounded p hp
    · obtain rfl := List.mem_singleton.mp hp
      exact hexp

theorem Tracks.cancelTimer (h : Tracks tickMs w a) (timerId : Nat) :
    Tracks tickMs (w.cancelTimer timerId) (a.step (.cancel timerId)) := by
  refine ⟨h.valid.cancelTimer _, h.tickMs_eq, h.currentTick, h.nextId, ?_, ?_, ?_⟩
  · intro s hs
    rw [slot_cancelTimer h.valid, live_map_marked, h.slot s hs]
    exact (a.shard_cancel timerId w.numSlots s).symm
  · intro e he
    rw [cancelTimer_entries h.valid] at he
    obtain ⟨f, hf, rfl⟩ := List.mem_map.mp he
    unfold marked
    split <;> exact h.quiet f hf
  · exact fun p hp => h.bounded p (List.mem_of_mem_filter hp)

/-! ### A tick -/

theorem Tracks.pending_eq_nil (h : Tracks tickMs w a) (ha : a.WellFormed)
    (hnow : 2 ^ 64 ≤ a.now) : a.pending = [] := by
  refine List.eq_nil_iff_forall_not_mem.mpr fun p hp => ?_
  have := ha.upcoming p hp
  have := h.bounded p hp
  omega

theorem Tracks.currentSlot_lt (h : Tracks tickMs w a) : w.currentSlot < w.numSlots :=
  Nat.mod_lt _ h.valid.numSlots_pos

/-- The source compares the entries of the current slot with the current tick; on the agenda
that asks whether an item of the shard is due now. -/
theorem Tracks.filter_current (h : Tracks tickMs w a) (ha : a.WellFormed) :
    ((live (w.slot w.currentSlot)).filter fun p => p.2 ≤ w.currentTick) =
        ((a.shard w.numSlots (a.now % w.numSlots)).filter fun p => p.2 = a.now) ∧
      ((live (w.slot w.currentSlot)).filter fun p => w.currentTick < p.2) =
        (a.step .tick).shard w.numSlots w.currentSlot := by
  rw [h.slot _ h.currentSlot_lt, Agenda.shard_tick]
  by_cases hnow : a.now < 2 ^ 64
  · have htick : w.currentTick = a.now := by rw [h.currentTick, Nat.mod_eq_of_lt hnow]
    rw [currentSlot, htick]
    have hle : ∀ p ∈ a.shard w.numSlots (a.now % w.numSlots), a.now ≤ p.2 :=
      fun p hp => ha.upcoming p (List.mem_of_mem_filter hp)
    constructor
    · refine List.filter_congr fun p hp => decide_eq_decide.mpr ?_
      have := hle p hp
      omega
    · refine List.filter_congr fun p hp => decide_eq_decide.mpr ?_
      have := hle p hp
      omega
  · -- past the last expiry tick of 64 bits nothing is pending
    have hnil := h.pending_eq_nil ha (by omega)
    simp [Agenda.shard, hnil]

theorem Tracks.toFire_ids (h : Tracks tickMs w a) (ha : a.WellFormed) :
    w.toFire.map TimerEntry.id = a.due := by
  rw [TimerWheel.toFire_ids, (h.filter_current ha).1, ← Agenda.due_eq_shard]

theorem Tracks.slot_swapped (h : Tracks tickMs w a) (ha : a.WellFormed) {s : Nat}
    (hs : s < w.numSlots) : live (w.swapped.slot s) = (a.step .tick).shard w.numSlots s := by
  rw [TimerWheel.slot_swapped h.valid]
  by_cases hcur : s = w.currentSlot
  · rw [if_pos hcur, live_keep, (h.filter_current ha).2, hcur]
  · rw [if_neg hcur, h.slot s hs]
    by_cases hnow : a.now < 2 ^ 64
    · refine (a.shard_tick_of_ne fun hmod => hcur ?_).symm
      rw [← hmod, currentSlot, h.currentTick, Nat.mod_eq_of_lt hnow]
    · have hnil := h.pending_eq_nil ha (by omega)
      simp [Agenda.shard, Agenda.step, hnil]

theorem Tracks.tick_eq (h : Tracks tickMs w a) :
    w.tick = { wheel := w.swapped.advance, events := w.toFire.map fun e => .fired e.id,
               threw := false } := by
  have hquiet : ∀ e ∈ w.toFire, e.callback = some { calls := [] } := fun e he =>
    h.quiet e (mem_slot (List.mem_of_mem_filter he))
  simp [TimerWheel.tick, runCallbacks_of_quiet w.swapped hquiet]

theorem Tracks.tick_events (h : Tracks tickMs w a) (ha : a.WellFormed) :
    w.tick.events = a.due.map .fired := by
  rw [h.tick_eq, ← h.toFire_ids ha, List.map_map]
  rfl

theorem Tracks.tick (h : Tracks tickMs w a) (ha : a.WellFormed) :
    Tracks tickMs w.tick.wheel (a.step .tick) := by
  rw [h.tick_eq]
  refine ⟨h.valid.swapped.advance, h.tickMs_eq, ?_, h.nextId, ?_, ?_, ?_⟩
  · show (w.currentTick + 1) % 2 ^ 64 = (a.now + 1) % 2 ^ 64
    rw [h.currentTick, Nat.mod_add_mod]
  · exact fun s hs => h.slot_swapped ha hs
  · exact fun e he => h.quiet e (w.swapped_entries.subset he)
  · exact fun p hp => h.bounded p (List.mem_of_mem_filter hp)

/-! ### Runs -/

@[simp] theorem run_append_singleton (w : TimerWheel) (ops : List Op) (op : Op) :
    (w.run (ops ++ [op])).1 = ((w.run ops).1.step op).1 := by
  induction ops generalizing w with
  | nil => rfl
  | cons o ops ih => exact ih _

theorem toAgenda_ticks (tickMs : Nat) (ops : List Op) :
    Agenda.ticks (ops.map (Op.toAgenda tickMs)) = ticks ops := by
  rw [Agenda.ticks, List.count, List.countP_map, ticks]
  refine List.countP_congr fun op _ => ?_
  rcases op with (_ | _) | _ <;> simp [Op.toAgenda]

theorem toAgenda_adds (tickMs : Nat) (ops : List Op) :
    Agenda.adds (ops.map (Op.toAgenda tickMs)) = adds ops := by
  rw [Agenda.adds, List.countP_map, adds]
  refine List.countP_congr fun op _ => ?_
  rcases op with (_ | _) | _ <;> simp [Op.toAgenda, Agenda.Op.isAdd]

theorem NoWrap.init {ops : List Op} {op : Op} (h : NoWrap tickMs (ops ++ [op])) :
    NoWrap tickMs ops := by
  rintro pre delayMs callback post rfl
  exact h pre delayMs callback (post ++ [op]) (by simp)

/-- **Along every run the wheel holds the agenda of its history.** -/
theorem tracks_run {numSlots : Nat} (hslots : 0 < numSlots) {ops : List Op}
    (hout : ∀ op ∈ ops, op.outside) (hwrap : NoWrap tickMs ops) :
    Tracks tickMs ((new numSlots tickMs).run ops).1
      (Agenda.run (ops.map (Op.toAgenda tickMs))) := by
  induction ops using List.reverseRecOn with
  | nil => exact tracks_new hslots tickMs
  | append_singleton ops op ih =>
    have ih := ih (fun o ho => hout o (List.mem_append_left _ ho)) hwrap.init
    rw [run_append_singleton, List.map_append, List.map_singleton, Agenda.run_append_singleton]
    rcases op with (⟨delayMs, callback⟩ | timerId) | _
    · have hquiet : callback = some { calls := [] } :=
        hout (.call (.addTimer delayMs callback)) (by simp)
      subst hquiet
      obtain ⟨hround, hexp⟩ := hwrap ops delayMs _ [] rfl
      rw [← toAgenda_ticks tickMs, ← Agenda.run_now] at hexp
      exact ih.addTimer hround hexp
    · exact ih.cancelTimer timerId
    · exact ih.tick (Agenda.run_wellFormed _)

theorem scheduled_toAgenda (ops : List Op) (id beat : Nat) :
    Agenda.Scheduled (ops.map (Op.toAgenda tickMs)) id beat ↔
      ∃ pre delayMs callback post, ops = pre ++ .call (.addTimer delayMs callback) :: post ∧
        id = adds pre ∧ beat = ticks pre + delayMs ⌈/⌉ tickMs ∧
        Op.call (.cancelTimer id) ∉ post := by
  have hcancel : ∀ post : List Op, Agenda.Op.cancel id ∈ post.map (Op.toAgenda tickMs) ↔
      Op.call (.cancelTimer id) ∈ post := by
    intro post
    rw [List.mem_map]
    constructor
    · rintro ⟨(_ | _) | _, hop, heq⟩ <;> simp_all [Op.toAgenda]
    · exact fun h => ⟨_, h, rfl⟩
  constructor
  · rintro ⟨pre, delay, post, hops, hid, hbeat, hpost⟩
    obtain ⟨pre, rest, rfl, rfl, hrest⟩ := List.map_eq_append_iff.mp hops
    obtain ⟨op, post, rfl, hop, rfl⟩ := List.map_eq_cons_iff.mp hrest
    rcases op with (⟨delayMs, callback⟩ | _) | _ <;> simp only [Op.toAgenda] at hop
    · obtain rfl : _ = delay := by simpa using hop
      refine ⟨pre, delayMs, callback, post, rfl, ?_, ?_, fun h => hpost ((hcancel post).mpr h)⟩
      · rw [hid, toAgenda_adds]
      · rw [hbeat, toAgenda_ticks]
    · simp at hop
    · simp at hop
  · rintro ⟨pre, delayMs, callback, post, rfl, hid, hbeat, hpost⟩
    refine ⟨pre.map (Op.toAgenda tickMs), delayMs ⌈/⌉ tickMs, post.map (Op.toAgenda tickMs),
      by simp [Op.toAgenda], ?_, ?_, fun h => hpost ((hcancel post).mp h)⟩
    · rw [toAgenda_adds, hid]
    · rw [toAgenda_ticks, hbeat]

/-- **Exactness.** After any history of calls from outside the callbacks, the next `addTimer`
returns the number of timers added before, and the next `tick` runs, in the order they were
added, the callbacks of exactly those timers whose delay, rounded up to ticks and counted from
the tick they were added at, ends at this tick and that were not cancelled since. -/
theorem tick_exact {numSlots tickMs : Nat} (hslots : 0 < numSlots) (ops : List Op)
    (hout : ∀ op ∈ ops, op.outside) (hwrap : NoWrap tickMs ops) :
    let w := ((new numSlots tickMs).run ops).1
    (∀ delayMs callback, (w.addTimer delayMs callback).2 = adds ops) ∧
      ∃ ids : List Nat, w.tick.events = ids.map .fired ∧ ids.Pairwise (· < ·) ∧
        ∀ id, id ∈ ids ↔ ∃ pre delayMs callback post,
          ops = pre ++ .call (.addTimer delayMs callback) :: post ∧ id = adds pre ∧
          ticks ops = ticks pre + delayMs ⌈/⌉ tickMs ∧ Op.call (.cancelTimer id) ∉ post := by
  intro w
  have htracks := tracks_run hslots hout hwrap
  have hwf := Agenda.run_wellFormed (ops.map (Op.toAgenda tickMs))
  refine ⟨fun _ _ => ?_, _, htracks.tick_events hwf, hwf.due_ascending, fun id => ?_⟩
  · exact htracks.nextId.trans (by rw [Agenda.run_nextId, toAgenda_adds])
  · rw [Agenda.mem_due_run, toAgenda_ticks, scheduled_toAgenda]

/-- A history with short delays wraps nowhere. -/
theorem noWrap_of_bound {ops : List Op} {bound : Nat} (hticks : 0 < tickMs)
    (hdelay : ∀ delayMs callback, .call (.addTimer delayMs callback) ∈ ops → delayMs ≤ bound)
    (hbound : ops.length + bound + tickMs ≤ 2 ^ 64) : NoWrap tickMs ops := by
  rintro pre delayMs callback post rfl
  have hle := hdelay delayMs callback (by simp)
  have hpre : ticks pre ≤ pre.length := List.countP_le_length
  have hceil : delayMs ⌈/⌉ tickMs ≤ delayMs :=
    (ceilDiv_le_iff_le_mul hticks).mpr (Nat.le_mul_of_pos_left _ hticks)
  simp only [List.length_append, List.length_cons] at hbound
  omega

/-- Five calls on a wheel of two slots: two timers of tick 1, one of a later round of the same
slot, one that is cancelled. -/
def fiveCalls : List Op :=
  [.call (.addTimer 10 (some { calls := [] })), .call (.addTimer 50 (some { calls := [] })),
    .call (.addTimer 1 (some { calls := [] })), .call (.cancelTimer 2),
    .call (.addTimer 3 (some { calls := [] }))]

theorem tick_exact_fiveCalls :
    (((new 2 10).run (fiveCalls ++ [.tick])).1.addTimer 7 none).2 = 4 ∧
      ((new 2 10).run (fiveCalls ++ [.tick])).1.tick.events = [.fired 0, .fired 3] := by
  have hout : ∀ op ∈ fiveCalls ++ [.tick], op.outside := by
    simp [fiveCalls, Op.outside]
  have hwrap : NoWrap 10 (fiveCalls ++ [.tick]) := by
    refine @noWrap_of_bound 10 _ 50 (by decide) ?_ (by decide)
    intro delayMs callback hmem
    have hdelay : delayMs = 10 ∨ delayMs = 50 ∨ delayMs = 1 ∨ delayMs = 3 := by
      simp [fiveCalls] at hmem
      tauto
    omega
  exact ⟨(tick_exact (by decide) _ hout hwrap).1 7 none, by decide⟩

end XNetty.Event.TimerWheel
