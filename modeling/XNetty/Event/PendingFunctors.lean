import XNetty.Event.SpscQueue

/-!
# The functors queued in a loop

`EventLoop::queueInLoop` puts a functor into the ring, and into `pendingFunctors_` when the ring
refuses it. The ring takes its argument by value, so a refused functor has been moved into the
argument and is gone: what goes to `pendingFunctors_` is empty.

## Main definitions

* `PendingFunctors` — the two containers, with the functors passed in and those invoked.
* `PendingFunctors.run` — calls of `queueInLoop` and rounds of `doPendingFunctors`.
* `PendingFunctors.backlog` — the functors queued since the last round.
-/

namespace XNetty.Event

structure PendingFunctors (α : Type*) where
  lfBuffer : SpscQueue α
  pendingFunctors : List (Option α) := []
  /-- The functors passed to `queueInLoop`. -/
  queued : List α := []
  invoked : List α := []

inductive FunctorStep (α : Type*) where
  | queueInLoop (cb : α)
  | doPendingFunctors

namespace PendingFunctors

variable {α : Type*}

/-- `EventLoop::queueInLoop`, up to the wakeup. -/
def queueInLoop (s : PendingFunctors α) (cb : α) : PendingFunctors α :=
  let pushed := s.lfBuffer.push (some cb)
  { s with
    lfBuffer := pushed.1
    -- `push(std::move(cb))` leaves `cb` empty, also when it returns false
    pendingFunctors := if pushed.2 then s.pendingFunctors else s.pendingFunctors ++ [none]
    queued := s.queued ++ [cb] }

/-- `for (auto &f : functors) f();`. An empty functor throws `std::bad_function_call`, which
ends the round. -/
def invokeAll : List (Option α) → List α
  | [] => []
  | none :: _ => []
  | some cb :: functors => cb :: invokeAll functors

/-- `EventLoop::doPendingFunctors`. -/
def doPendingFunctors (s : PendingFunctors α) : PendingFunctors α :=
  let popped := s.lfBuffer.popAll
  { s with
    lfBuffer := popped.1
    pendingFunctors := []
    invoked := s.invoked ++ invokeAll (popped.2 ++ s.pendingFunctors) }

def step (s : PendingFunctors α) : FunctorStep α → PendingFunctors α
  | .queueInLoop cb => s.queueInLoop cb
  | .doPendingFunctors => s.doPendingFunctors

def run (s : PendingFunctors α) (steps : List (FunctorStep α)) : PendingFunctors α :=
  steps.foldl step s

@[simp] theorem run_append (s : PendingFunctors α) (steps steps' : List (FunctorStep α)) :
    s.run (steps ++ steps') = (s.run steps).run steps' := List.foldl_append ..

/-- Rounds to come invoke what was queued, each functor once and in order. -/
def AllInvoked (s : PendingFunctors α) : Prop :=
  ∃ rounds, (s.run (List.replicate rounds .doPendingFunctors)).invoked = s.queued

/-! ### The backlog -/

def backlogStep (n : ℕ) : FunctorStep α → ℕ
  | .queueInLoop _ => n + 1
  | .doPendingFunctors => 0

/-- The functors queued since the last round. -/
def backlog (steps : List (FunctorStep α)) : ℕ := steps.foldl backlogStep 0

@[simp] theorem backlog_append_singleton (steps : List (FunctorStep α)) (st : FunctorStep α) :
    backlog (steps ++ [st]) = backlogStep (backlog steps) st := by
  simp [backlog]

theorem backlog_le_length (steps : List (FunctorStep α)) : backlog steps ≤ steps.length := by
  induction steps using List.reverseRecOn with
  | nil => exact le_rfl
  | append_singleton steps st ih =>
    rw [backlog_append_singleton, List.length_append, List.length_singleton]
    cases st with
    | queueInLoop cb => exact Nat.succ_le_succ ih
    | doPendingFunctors => exact Nat.zero_le _

/-- No two rounds have more than `size - 1` functors queued between them. -/
def Fits (size : ℕ) (steps : List (FunctorStep α)) : Prop :=
  ∀ steps', steps' <+: steps → backlog steps' < size

theorem Fits.nil {size : ℕ} (hsize : 0 < size) : Fits size ([] : List (FunctorStep α)) := by
  intro steps' hbefore
  obtain rfl := List.prefix_nil.mp hbefore
  exact hsize

theorem fits_append_singleton {size : ℕ} {steps : List (FunctorStep α)} {st : FunctorStep α} :
    Fits size (steps ++ [st]) ↔ Fits size steps ∧ backlogStep (backlog steps) st < size := by
  constructor
  · intro h
    refine ⟨fun steps' hbefore => h steps' (hbefore.trans (List.prefix_append _ _)), ?_⟩
    simpa using h _ (List.prefix_refl _)
  · rintro ⟨hsteps, hlast⟩ steps' hbefore
    rcases List.prefix_concat_iff.mp hbefore with rfl | hbefore
    · simpa using hlast
    · exact hsteps steps' hbefore

/-! ### What becomes of the functors -/

@[simp] theorem invokeAll_map_some (items : List α) : invokeAll (items.map some) = items := by
  induction items with
  | nil => rfl
  | cons item items ih => exact congrArg (item :: ·) ih

theorem invokeAll_append_none (items : List α) {empty : List (Option α)}
    (hempty : ∀ f ∈ empty, f = none) : invokeAll (items.map some ++ empty) = items := by
  induction items with
  | nil =>
    cases empty with
    | nil => rfl
    | cons f empty =>
      obtain rfl := hempty f List.mem_cons_self
      rfl
  | cons item items ih => exact congrArg (item :: ·) ih

/-- The ring has the functors `items`, and `pendingFunctors_` only empty ones. As long as no call
found the ring full, the functors passed in are the invoked ones and those in the ring; then one
is missing. -/
structure Accounted (size : ℕ) (steps : List (FunctorStep α)) (s : PendingFunctors α) (lo : ℕ)
    (items : List α) : Prop where
  size_eq : s.lfBuffer.size = size
  keeps : s.lfBuffer.Keeps lo (items.map some)
  empty : ∀ f ∈ s.pendingFunctors, f = none
  kept : Fits size steps →
    s.pendingFunctors = [] ∧ s.queued = s.invoked ++ items ∧ items.length = backlog steps
  lost : ¬ Fits size steps → s.invoked.length + items.length < s.queued.length

theorem Accounted.le {size : ℕ} {steps : List (FunctorStep α)} {s : PendingFunctors α} {lo : ℕ}
    {items : List α} (h : Accounted size steps s lo items) :
    s.invoked.length + items.length ≤ s.queued.length := by
  by_cases hfits : Fits size steps
  · rw [(h.kept hfits).2.1, List.length_append]
  · exact (h.lost hfits).le

variable {size : ℕ} {steps : List (FunctorStep α)} {s : PendingFunctors α} {lo : ℕ}
  {items : List α}

/-- A call that finds room in the ring. -/
theorem Accounted.queueInLoop (h : Accounted size steps s lo items)
    (hroom : items.length + 1 < size) (cb : α) :
    Accounted size (steps ++ [.queueInLoop cb]) (s.queueInLoop cb) lo (items ++ [cb]) := by
  obtain ⟨hpushed, hkeeps, hsize⟩ :=
    h.keeps.push (by rw [List.length_map, h.size_eq]; exact hroom) (some cb)
  have hpending : (s.queueInLoop cb).pendingFunctors = s.pendingFunctors := if_pos hpushed
  refine ⟨hsize.trans h.size_eq, by rw [List.map_append]; exact hkeeps, ?_, ?_, ?_⟩
  · rw [hpending]
    exact h.empty
  · intro hfits
    obtain ⟨hnone, hqueued, hlength⟩ := h.kept (fits_append_singleton.mp hfits).1
    refine ⟨hpending.trans hnone, ?_, by simp [backlogStep, hlength]⟩
    change s.queued ++ [cb] = s.invoked ++ (items ++ [cb])
    rw [hqueued, List.append_assoc]
  · intro hfull
    have hlost : s.invoked.length + items.length < s.queued.length := by
      by_cases hfits : Fits size steps
      · have hlast : ¬ backlog steps + 1 < size :=
          fun hlast => hfull (fits_append_singleton.mpr ⟨hfits, hlast⟩)
        have hlength := (h.kept hfits).2.2
        omega
      · exact h.lost hfits
    change s.invoked.length + (items ++ [cb]).length < (s.queued ++ [cb]).length
    rw [List.length_append, List.length_append, List.length_singleton]
    omega

/-- **A call that finds the ring full loses its functor.** -/
theorem Accounted.queueInLoop_full (h : Accounted size steps s lo items)
    (hfull : items.length + 1 = size) (cb : α) :
    Accounted size (steps ++ [.queueInLoop cb]) (s.queueInLoop cb) lo items := by
  have hpush := h.keeps.push_full (by rw [List.length_map, h.size_eq]; exact hfull) (some cb)
  have hbuffer : (s.queueInLoop cb).lfBuffer = s.lfBuffer := congrArg Prod.fst hpush
  have hpending : (s.queueInLoop cb).pendingFunctors = s.pendingFunctors ++ [none] :=
    if_neg (by rw [hpush]; exact Bool.false_ne_true)
  refine ⟨hbuffer ▸ h.size_eq, hbuffer ▸ h.keeps, ?_, ?_, ?_⟩
  · intro f hf
    rw [hpending] at hf
    rcases List.mem_append.mp hf with hf | hf
    · exact h.empty f hf
    · exact List.mem_singleton.mp hf
  · intro hfits
    obtain ⟨hfits, hlast⟩ := fits_append_singleton.mp hfits
    have hlength := (h.kept hfits).2.2
    have hlast : backlog steps + 1 < size := hlast
    omega
  · intro _
    have hle := h.le
    change s.invoked.length + items.length < (s.queued ++ [cb]).length
    rw [List.length_append, List.length_singleton]
    omega

theorem Accounted.doPendingFunctors (h : Accounted size steps s lo items) :
    Accounted size (steps ++ [.doPendingFunctors]) s.doPendingFunctors (lo + items.length) [] := by
  obtain ⟨hpopped, hkeeps, hsize⟩ := h.keeps.popAll
  have hinvoked : s.doPendingFunctors.invoked = s.invoked ++ items := by
    change s.invoked ++ invokeAll (s.lfBuffer.popAll.2 ++ s.pendingFunctors) = _
    rw [hpopped, invokeAll_append_none items h.empty]
  have hsize_pos : 0 < size := h.size_eq ▸ s.lfBuffer.size_pos
  rw [List.length_map] at hkeeps
  refine ⟨hsize.trans h.size_eq, hkeeps, fun f hf => absurd hf List.not_mem_nil, ?_, ?_⟩
  · intro hfits
    obtain ⟨-, hqueued, -⟩ := h.kept (fits_append_singleton.mp hfits).1
    refine ⟨rfl, ?_, by simp [backlogStep]⟩
    rw [hinvoked, List.append_nil]
    exact hqueued
  · intro hfull
    have hlost := h.lost fun hfits => hfull (fits_append_singleton.mpr ⟨hfits, hsize_pos⟩)
    rw [hinvoked, List.length_append, List.length_nil]
    exact hlost

theorem Accounted.step (h : Accounted size steps s lo items) (st : FunctorStep α) :
    ∃ lo' items', Accounted size (steps ++ [st]) (s.step st) lo' items' := by
  cases st with
  | queueInLoop cb =>
    have hroom := h.keeps.room
    rw [List.length_map, h.size_eq] at hroom
    rcases Nat.lt_or_eq_of_le (Nat.succ_le_of_lt hroom) with hlt | hfull
    · exact ⟨lo, items ++ [cb], h.queueInLoop hlt cb⟩
    · exact ⟨lo, items, h.queueInLoop_full hfull cb⟩
  | doPendingFunctors => exact ⟨_, _, h.doPendingFunctors⟩

/-- A loop with the ring of a given size, before anything is queued. -/
def new (q : SpscQueue α) : PendingFunctors α := { lfBuffer := q }

theorem accounted_run {n : ℕ} {q : SpscQueue α} (hq : SpscQueue.new n = some q)
    (steps : List (FunctorStep α)) :
    ∃ lo items, Accounted q.size steps ((new q).run steps) lo items := by
  induction steps using List.reverseRecOn with
  | nil =>
    refine ⟨0, [], rfl, SpscQueue.new_keeps hq, fun f hf => absurd hf List.not_mem_nil, ?_, ?_⟩
    · exact fun _ => ⟨rfl, rfl, rfl⟩
    · exact fun hfull => absurd (Fits.nil q.size_pos) hfull
  | append_singleton steps st ih =>
    obtain ⟨lo, items, h⟩ := ih
    rw [run_append]
    exact h.step st

theorem backlog_rounds (steps : List (FunctorStep α)) (rounds : ℕ) {size : ℕ} (hsize : 0 < size) :
    Fits size (steps ++ List.replicate rounds .doPendingFunctors) ↔ Fits size steps := by
  induction rounds with
  | zero => simp
  | succ rounds ih =>
    rw [List.replicate_succ', ← List.append_assoc, fits_append_singleton, ih]
    exact and_iff_left hsize

theorem queued_rounds (s : PendingFunctors α) (rounds : ℕ) :
    (s.run (List.replicate rounds .doPendingFunctors)).queued = s.queued := by
  induction rounds generalizing s with
  | zero => rfl
  | succ rounds ih => exact ih s.doPendingFunctors

/-- Once a call has found the ring full, no round makes up for it. -/
theorem not_allInvoked {n : ℕ} {q : SpscQueue α} (hq : SpscQueue.new n = some q)
    {steps : List (FunctorStep α)} (hfull : ¬ Fits q.size steps) :
    ¬ ((new q).run steps).AllInvoked := by
  rintro ⟨rounds, hall⟩
  obtain ⟨lo, items, h⟩ :=
    accounted_run hq (steps ++ List.replicate rounds .doPendingFunctors)
  have hlost := h.lost fun hfits => hfull ((backlog_rounds steps rounds q.size_pos).mp hfits)
  rw [run_append, hall, queued_rounds] at hlost
  omega

/-- **Every queued functor is invoked, once and in order, exactly when no call finds the ring
full.** -/
theorem run_allInvoked_iff {n : ℕ} {q : SpscQueue α} (hq : SpscQueue.new n = some q)
    (steps : List (FunctorStep α)) :
    ((new q).run steps).AllInvoked ↔ ∀ steps', steps' <+: steps → backlog steps' < q.size := by
  constructor
  · intro hall
    by_contra hfull
    exact not_allInvoked hq hfull hall
  · intro hfits
    obtain ⟨lo, items, h⟩ := accounted_run hq steps
    obtain ⟨hnone, hqueued, -⟩ := h.kept hfits
    refine ⟨1, ?_⟩
    change ((new q).run steps).invoked ++
      invokeAll (((new q).run steps).lfBuffer.popAll.2 ++ ((new q).run steps).pendingFunctors) = _
    rw [h.keeps.popAll.1, hnone, List.append_nil, invokeAll_map_some, hqueued]

/-- Two functors, one queued after a round. -/
theorem run_allInvoked_iff_two :
    ((new (.smallest ℕ)).run
      [.queueInLoop 7, .doPendingFunctors, .queueInLoop 8]).AllInvoked := by
  apply (run_allInvoked_iff (SpscQueue.new_smallest ℕ) _).mpr
  intro steps' hbefore
  calc backlog steps' ≤ steps'.length := backlog_le_length steps'
    _ ≤ 3 := hbefore.length_le
    _ < 64 := by decide

/-- The smallest ring of a loop has no room for the last of 64 functors. -/
theorem not_allInvoked_burst :
    ¬ ((new (.smallest ℕ)).run ((List.range 64).map .queueInLoop)).AllInvoked := by
  apply not_allInvoked (SpscQueue.new_smallest ℕ)
  intro hfits
  have hburst := hfits _ (List.prefix_refl _)
  exact absurd hburst (by decide)

end PendingFunctors

end XNetty.Event
