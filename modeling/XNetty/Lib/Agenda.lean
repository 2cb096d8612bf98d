import Mathlib.Tactic

/-!
# Agendas

An agenda numbers the items put on it and keeps each one until the beat it is due at. What
is on the agenda is determined by its history: an item is pending when it was added, was not
called off since, and its beat has not passed. An agenda cut into shards by the residue of
the due beat is the same agenda.

## Main definitions

* `Agenda` — the pending items, each with the beat it is due at, in the order they were added.
* `Scheduled` — what a history of operations says about an item.
* `Agenda.shard` — the items whose beat has a given residue.
-/

structure Agenda where
  now : Nat := 0
  nextId : Nat := 0
  pending : List (Nat × Nat) := []

namespace Agenda

inductive Op where
  | add (delay : Nat)
  | cancel (id : Nat)
  | tick
  deriving DecidableEq

def Op.isAdd : Op → Bool
  | .add _ => true
  | _ => false

def step (a : Agenda) : Op → Agenda
  | .add delay =>
    { a with nextId := a.nextId + 1, pending := a.pending ++ [(a.nextId, a.now + delay)] }
  | .cancel id => { a with pending := a.pending.filter fun p => p.1 ≠ id }
  | .tick => { a with now := a.now + 1, pending := a.pending.filter fun p => p.2 ≠ a.now }

/-- The items that the next beat brings up. -/
def due (a : Agenda) : List Nat := (a.pending.filter fun p => p.2 = a.now).map Prod.fst

def run (ops : List Op) : Agenda := ops.foldl step {}

@[simp] theorem run_append_singleton (ops : List Op) (op : Op) :
    run (ops ++ [op]) = (run ops).step op := by
  simp [run]

/-! ### What is on the agenda -/

structure WellFormed (a : Agenda) : Prop where
  ascending : (a.pending.map Prod.fst).Pairwise (· < ·)
  issued : ∀ p ∈ a.pending, p.1 < a.nextId
  upcoming : ∀ p ∈ a.pending, a.now ≤ p.2

theorem WellFormed.filter {a : Agenda} (h : a.WellFormed) (keep : Nat × Nat → Bool) :
    ((a.pending.filter keep).map Prod.fst).Pairwise (· < ·) :=
  h.ascending.sublist (List.filter_sublist.map _)

theorem WellFormed.step {a : Agenda} (h : a.WellFormed) (op : Op) : (a.step op).WellFormed := by
  cases op with
  | add delay =>
    refine ⟨?_, ?_, ?_⟩
    · simp only [Agenda.step, List.map_append, List.pairwise_append]
      refine ⟨h.ascending, by simp, ?_⟩
      intro i hi j hj
      obtain ⟨p, hp, rfl⟩ := List.mem_map.mp hi
      obtain rfl : j = a.nextId := by simpa using hj
      exact h.issued p hp
    · intro p hp
      rcases List.mem_append.mp hp with hp | hp
      · exact Nat.lt_succ_of_lt (h.issued p hp)
      · obtain rfl := List.mem_singleton.mp hp
        exact Nat.lt_succ_self _
    · intro p hp
      rcases List.mem_append.mp hp with hp | hp
      · exact h.upcoming p hp
      · obtain rfl := List.mem_singleton.mp hp
        exact Nat.le_add_right _ _
  | cancel id =>
    exact ⟨h.filter _, fun p hp => h.issued p (List.mem_of_mem_filter hp),
      fun p hp => h.upcoming p (List.mem_of_mem_filter hp)⟩
  | tick =>
    refine ⟨h.filter _, fun p hp => h.issued p (List.mem_of_mem_filter hp), fun p hp => ?_⟩
    obtain ⟨hmem, hne⟩ := List.mem_filter.mp hp
    have := h.upcoming p hmem
    have hne : p.2 ≠ a.now := by simpa using hne
    exact Nat.lt_of_le_of_ne this hne.symm

theorem run_wellFormed (ops : List Op) : (run ops).WellFormed := by
  induction ops using List.reverseRecOn with
  | nil => exact ⟨by simp [run], by simp [run], by simp [run]⟩
  | append_singleton ops op ih => rw [run_append_singleton]; exact ih.step op

/-- The items of one beat come up in the order they were added. -/
theorem WellFormed.due_ascending {a : Agenda} (h : a.WellFormed) : a.due.Pairwise (· < ·) :=
  h.filter _

/-! ### History -/

def adds (ops : List Op) : Nat := ops.countP Op.isAdd

def ticks (ops : List Op) : Nat := ops.count .tick

@[simp] theorem run_now (ops : List Op) : (run ops).now = ticks ops := by
  induction ops using List.reverseRecOn with
  | nil => rfl
  | append_singleton ops op ih => cases op <;> simp [step, ticks, ih]

@[simp] theorem run_nextId (ops : List Op) : (run ops).nextId = adds ops := by
  induction ops using List.reverseRecOn with
  | nil => rfl
  | append_singleton ops op ih => cases op <;> simp [step, adds, ih, Op.isAdd]

/-- Item `id` was added to be due at `beat`, and has not been called off since. -/
def Scheduled (ops : List Op) (id beat : Nat) : Prop :=
  ∃ pre delay mid, ops = pre ++ .add delay :: mid ∧ id = adds pre ∧ beat = ticks pre + delay ∧
    .cancel id ∉ mid

theorem scheduled_append_singleton (ops : List Op) (op : Op) (id beat : Nat) :
    Scheduled (ops ++ [op]) id beat ↔
      Scheduled ops id beat ∧ op ≠ .cancel id ∨
        ∃ delay, op = .add delay ∧ id = adds ops ∧ beat = ticks ops + delay := by
  constructor
  · rintro ⟨pre, delay, mid, hops, hid, hbeat, hmid⟩
    rcases List.eq_nil_or_concat mid with rfl | ⟨mid, last, rfl⟩
    · obtain ⟨rfl, hop⟩ := List.append_inj' hops rfl
      exact .inr ⟨delay, by simpa using hop, hid, hbeat⟩
    · rw [List.concat_eq_append] at hops hmid
      rw [← List.cons_append, ← List.append_assoc] at hops
      obtain ⟨rfl, hop⟩ := List.append_inj' hops rfl
      obtain rfl : op = last := by simpa using hop
      simp only [List.mem_append, List.mem_singleton, not_or] at hmid
      exact .inl ⟨⟨pre, delay, mid, rfl, hid, hbeat, hmid.1⟩, fun h => hmid.2 h.symm⟩
  · rintro (⟨⟨pre, delay, mid, rfl, hid, hbeat, hmid⟩, hop⟩ | ⟨delay, rfl, hid, hbeat⟩)
    · refine ⟨pre, delay, mid ++ [op], by simp, hid, hbeat, ?_⟩
      simp only [List.mem_append, List.mem_singleton, not_or]
      exact ⟨hmid, fun h => hop h.symm⟩
    · exact ⟨ops, delay, [], rfl, hid, hbeat, by simp⟩

/-- An item is pending exactly when the history scheduled it and its beat has not passed. -/
theorem mem_pending_run (ops : List Op) (id beat : Nat) :
    (id, beat) ∈ (run ops).pending ↔ Scheduled ops id beat ∧ ticks ops ≤ beat := by
  induction ops using List.reverseRecOn with
  | nil => simp [run, Scheduled]
  | append_singleton ops op ih =>
    rw [scheduled_append_singleton, run_append_singleton]
    cases op with
    | add delay =>
      simp only [step, List.mem_append, List.mem_singleton, ih, run_nextId, run_now, ticks,
        List.count_append, Prod.mk.injEq]
      grind
    | cancel other =>
      simp only [step, List.mem_filter, ih, ticks, List.count_append]
      grind
    | tick =>
      simp only [step, List.mem_filter, ih, run_now, ticks, List.count_append]
      grind

/-- The items of the next beat are the scheduled ones of its number. -/
theorem mem_due_run (ops : List Op) (id : Nat) :
    id ∈ (run ops).due ↔ Scheduled ops id (ticks ops) := by
  constructor
  · intro h
    obtain ⟨⟨i, beat⟩, hp, rfl⟩ := List.mem_map.mp h
    obtain ⟨hmem, hbeat⟩ := List.mem_filter.mp hp
    obtain rfl : beat = ticks ops := by simpa using hbeat
    exact ((mem_pending_run ops i _).mp hmem).1
  · intro h
    refine List.mem_map.mpr ⟨(id, ticks ops), List.mem_filter.mpr ⟨?_, by simp⟩, rfl⟩
    exact (mem_pending_run ops id _).mpr ⟨h, le_rfl⟩

/-! ### Shards -/

/-- The pending items whose beat leaves the residue `s`. -/
def shard (a : Agenda) (n s : Nat) : List (Nat × Nat) := a.pending.filter fun p => p.2 % n = s

theorem shard_add (a : Agenda) (delay n s : Nat) :
    (a.step (.add delay)).shard n s =
      if (a.now + delay) % n = s then a.shard n s ++ [(a.nextId, a.now + delay)]
      else a.shard n s := by
  simp only [step, shard, List.filter_append, List.filter_singleton]
  split <;> simp_all

theorem shard_cancel (a : Agenda) (id n s : Nat) :
    (a.step (.cancel id)).shard n s = (a.shard n s).filter fun p => p.1 ≠ id := by
  simp only [step, shard, List.filter_filter, Bool.and_comm]

theorem shard_tick (a : Agenda) (n s : Nat) :
    (a.step .tick).shard n s = (a.shard n s).filter fun p => p.2 ≠ a.now := by
  simp only [step, shard, List.filter_filter, Bool.and_comm]

theorem shard_tick_of_ne (a : Agenda) {n s : Nat} (hs : a.now % n ≠ s) :
    (a.step .tick).shard n s = a.shard n s := by
  rw [shard_tick, List.filter_eq_self]
  intro p hp
  have hp : p.2 % n = s := by simpa using (List.mem_filter.mp hp).2
  simpa using fun h : p.2 = a.now => hs (h ▸ hp)

/-- Everything due at the next beat lies in one shard. -/
theorem due_eq_shard (a : Agenda) (n : Nat) :
    a.due = ((a.shard n (a.now % n)).filter fun p => p.2 = a.now).map Prod.fst := by
  rw [due, shard, List.filter_filter]
  congr 2
  funext p
  by_cases h : p.2 = a.now <;> simp [h]

end Agenda
