import XNetty.Event.PendingFunctors

/-!
# Exceptions of functors

`doPendingFunctors` moves what is queued into a vector of its own before it calls the first
functor, and `EventLoop::loop` catches what a functor throws. What a functor queues while it runs
goes into the containers just emptied, where a call after the round would put it.

## Main definitions

* `FunctorLoop` — the containers of a loop and `callingPendingFunctors_`.
* `FunctorLoop.run` — calls of `queueInLoop` and rounds whose functors may throw.
* `run_unharmed_iff` — the runs in which no functor harms another.
-/

namespace XNetty.Event

structure FunctorLoop (α : Type*) where
  functors : PendingFunctors α
  callingPendingFunctors : Bool := false

namespace FunctorLoop

variable {α : Type*} (throws : α → Bool)

/-- `for (auto &f : functors) f();`, with the functors invoked and whether one threw. An empty
functor throws `std::bad_function_call`. -/
def callEach : List (Option α) → List α × Bool
  | [] => ([], false)
  | none :: _ => ([], true)
  | some cb :: functors =>
    if throws cb then ([cb], true)
    else
      let rest := callEach functors
      (cb :: rest.1, rest.2)

/-- `EventLoop::doPendingFunctors`. An exception passes by `callingPendingFunctors_ = false`. -/
def doPendingFunctors (s : FunctorLoop α) : FunctorLoop α :=
  let popped := s.functors.lfBuffer.popAll
  let called := callEach throws (popped.2 ++ s.functors.pendingFunctors)
  { functors := { s.functors with
      lfBuffer := popped.1
      pendingFunctors := []
      invoked := s.functors.invoked ++ called.1 }
    callingPendingFunctors := called.2 }

def step (s : FunctorLoop α) : FunctorStep α → FunctorLoop α
  | .queueInLoop cb => { s with functors := s.functors.queueInLoop cb }
  | .doPendingFunctors => s.doPendingFunctors throws

def run (s : FunctorLoop α) (steps : List (FunctorStep α)) : FunctorLoop α :=
  steps.foldl (step throws) s

/-- A loop with the ring of a given size, before anything is queued. -/
def new (q : SpscQueue α) : FunctorLoop α := { functors := .new q }

@[simp] theorem run_append_singleton (s : FunctorLoop α) (steps : List (FunctorStep α))
    (st : FunctorStep α) : s.run throws (steps ++ [st]) = (s.run throws steps).step throws st := by
  simp [run]

/-- After every round of the run the flag is down. -/
def Lowered (s : FunctorLoop α) (steps : List (FunctorStep α)) : Prop :=
  ∀ done, done ++ [.doPendingFunctors] <+: steps →
    (s.run throws (done ++ [.doPendingFunctors])).callingPendingFunctors = false

variable {throws} {s : FunctorLoop α} {steps : List (FunctorStep α)}

theorem lowered_append_singleton {st : FunctorStep α} :
    s.Lowered throws (steps ++ [st]) ↔ s.Lowered throws steps ∧
      (st = .doPendingFunctors →
        (s.run throws (steps ++ [.doPendingFunctors])).callingPendingFunctors = false) := by
  constructor
  · intro h
    refine ⟨fun done hdone => h done (hdone.trans (List.prefix_append _ _)), ?_⟩
    rintro rfl
    exact h steps (List.prefix_refl _)
  · rintro ⟨hsteps, hlast⟩ done hdone
    rcases List.prefix_concat_iff.mp hdone with heq | hdone
    · obtain ⟨rfl, hst⟩ := List.append_inj' heq rfl
      exact hlast (List.singleton_injective hst).symm
    · exact hsteps done hdone

/-! ### A round -/

/-- A round is left by no exception exactly if every functor of it is there and returns. -/
theorem callEach_returns {l : List (Option α)} (h : (callEach throws l).2 = false) :
    ∃ items : List α, l = items.map some ∧ (∀ cb ∈ items, throws cb = false) := by
  induction l with
  | nil => exact ⟨[], rfl, by simp⟩
  | cons f l ih =>
    cases f with
    | none => simp [callEach] at h
    | some cb =>
      by_cases hthrows : throws cb
      · simp [callEach, hthrows] at h
      · obtain ⟨items, rfl, hitems⟩ := ih (by simpa [callEach, hthrows] using h)
        refine ⟨cb :: items, rfl, ?_⟩
        exact List.forall_mem_cons.mpr ⟨by simpa using hthrows, hitems⟩

theorem callEach_map_some {items : List α} (h : ∀ cb ∈ items, throws cb = false) :
    callEach throws (items.map some) = (items, false) := by
  induction items with
  | nil => rfl
  | cons cb items ih =>
    obtain ⟨hcb, hitems⟩ := List.forall_mem_cons.mp h
    simp [callEach, hcb, ih hitems]

/-! ### Runs -/

theorem mem_queued (q : SpscQueue α) (steps : List (FunctorStep α)) (cb : α) :
    cb ∈ ((PendingFunctors.new q).run steps).queued ↔ .queueInLoop cb ∈ steps := by
  induction steps using List.reverseRecOn with
  | nil => simp [PendingFunctors.new, PendingFunctors.run]
  | append_singleton steps st ih =>
    rw [PendingFunctors.run_append, List.mem_append, ← ih]
    cases st with
    | queueInLoop cb' =>
      simp [PendingFunctors.run, PendingFunctors.step, PendingFunctors.queueInLoop]
    | doPendingFunctors =>
      simp [PendingFunctors.run, PendingFunctors.step, PendingFunctors.doPendingFunctors]

/-- What a run whose rounds all return has come to. A call that finds the ring full leaves an
empty functor behind, which the next round comes to. -/
structure Unharmed (throws : α → Bool) (q : SpscQueue α) (steps : List (FunctorStep α))
    (s : FunctorLoop α) : Prop where
  functors : s.functors = (PendingFunctors.new q).run steps
  returned : ∀ cb ∈ s.functors.invoked, throws cb = false
  fits : PendingFunctors.Fits q.size steps ∨ s.functors.pendingFunctors ≠ []

variable {q : SpscQueue α} {n : ℕ}

theorem Unharmed.queueInLoop (hq : SpscQueue.new n = some q) (h : Unharmed throws q steps s)
    (cb : α) :
    Unharmed throws q (steps ++ [.queueInLoop cb]) (s.step throws (.queueInLoop cb)) := by
  have hfunctors : (s.step throws (.queueInLoop cb)).functors =
      ((PendingFunctors.new q).run steps).queueInLoop cb :=
    congrArg (PendingFunctors.queueInLoop · cb) h.functors
  refine ⟨?_, h.returned, ?_⟩
  · rw [hfunctors, PendingFunctors.run_append]
    rfl
  · obtain ⟨lo, items, hacc⟩ := PendingFunctors.accounted_run hq steps
    have hroom := hacc.keeps.room
    rw [List.length_map, hacc.size_eq] at hroom
    rw [hfunctors]
    rcases h.fits with hfits | hpending
    · have hlength := (hacc.kept hfits).2.2
      rcases Nat.lt_or_eq_of_le (Nat.succ_le_of_lt hroom) with hlt | hfull
      · left
        refine PendingFunctors.fits_append_singleton.mpr ⟨hfits, ?_⟩
        change PendingFunctors.backlog steps + 1 < q.size
        omega
      · right
        have hpush := hacc.keeps.push_full (by rw [List.length_map, hacc.size_eq]; exact hfull)
          (some cb)
        simp [PendingFunctors.queueInLoop, hpush]
    · right
      rw [h.functors] at hpending
      unfold PendingFunctors.queueInLoop
      dsimp only
      split
      · exact hpending
      · simp

/-- A round that returns has found no empty functor, so no call has found the ring full. -/
theorem Unharmed.doPendingFunctors (hq : SpscQueue.new n = some q) (h : Unharmed throws q steps s)
    (hreturns : (s.doPendingFunctors throws).callingPendingFunctors = false) :
    Unharmed throws q (steps ++ [.doPendingFunctors]) (s.step throws .doPendingFunctors) ∧
      PendingFunctors.Fits q.size steps := by
  obtain ⟨items, hitems, hreturn⟩ := callEach_returns hreturns
  obtain ⟨lo, kept, hacc⟩ := PendingFunctors.accounted_run hq steps
  have hnone : s.functors.pendingFunctors = [] := by
    rw [List.eq_nil_iff_forall_not_mem]
    intro f hf
    obtain rfl := hacc.empty f (h.functors ▸ hf)
    have hmem : none ∈ items.map some := hitems ▸ List.mem_append_right _ hf
    simp at hmem
  have hfits := h.fits.resolve_right (not_not_intro hnone)
  have hcalled := callEach_map_some hreturn
  refine ⟨⟨?_, ?_, .inl ?_⟩, hfits⟩
  · rw [PendingFunctors.run_append, ← h.functors]
    change (s.doPendingFunctors throws).functors = s.functors.doPendingFunctors
    simp [FunctorLoop.doPendingFunctors, PendingFunctors.doPendingFunctors, hitems, hcalled]
  · intro cb hcb
    change cb ∈ (s.doPendingFunctors throws).functors.invoked at hcb
    simp only [FunctorLoop.doPendingFunctors, hitems, hcalled] at hcb
    rcases List.mem_append.mp hcb with hcb | hcb
    · exact h.returned cb hcb
    · exact hreturn cb hcb
  · exact PendingFunctors.fits_append_singleton.mpr ⟨hfits, q.size_pos⟩

theorem unharmed_run (hq : SpscQueue.new n = some q) (steps : List (FunctorStep α))
    (h : (new q).Lowered throws steps) : Unharmed throws q steps ((new q).run throws steps) := by
  induction steps using List.reverseRecOn with
  | nil =>
    exact ⟨rfl, by simp [run, new, PendingFunctors.new], .inl (PendingFunctors.Fits.nil q.size_pos)⟩
  | append_singleton steps st ih =>
    obtain ⟨hsteps, hlast⟩ := lowered_append_singleton.mp h
    rw [run_append_singleton]
    cases st with
    | queueInLoop cb => exact (ih hsteps).queueInLoop hq cb
    | doPendingFunctors =>
      have hreturns := hlast rfl
      rw [run_append_singleton] at hreturns
      exact ((ih hsteps).doPendingFunctors hq hreturns).1

/-- Without functors that throw, and with room for all, every round returns. -/
theorem lowered_of_returns (hq : SpscQueue.new n = some q) (steps : List (FunctorStep α))
    (hreturn : ∀ cb, .queueInLoop cb ∈ steps → throws cb = false)
    (hfits : PendingFunctors.Fits q.size steps) : (new q).Lowered throws steps := by
  induction steps using List.reverseRecOn with
  | nil =>
    intro done hdone
    exact absurd (List.prefix_nil.mp hdone) (by simp)
  | append_singleton steps st ih =>
    obtain ⟨hfits, -⟩ := PendingFunctors.fits_append_singleton.mp hfits
    have hsteps := ih (fun cb hcb => hreturn cb (List.mem_append_left _ hcb)) hfits
    refine lowered_append_singleton.mpr ⟨hsteps, fun _ => ?_⟩
    obtain ⟨lo, items, hacc⟩ := PendingFunctors.accounted_run hq steps
    obtain ⟨hnone, hqueued, -⟩ := hacc.kept hfits
    have hitems : ∀ cb ∈ items, throws cb = false := by
      intro cb hcb
      refine hreturn cb (List.mem_append_left _ ((mem_queued q steps cb).mp ?_))
      rw [hqueued]
      exact List.mem_append_right _ hcb
    rw [run_append_singleton]
    change (callEach throws _).2 = false
    rw [(unharmed_run hq steps hsteps).functors, hnone, hacc.keeps.popAll.1, List.append_nil,
      callEach_map_some hitems]

/-- **When no functor harms another.** Along a run that ends with a round, the flag is down after
every round and every functor queued has been invoked, once and in order, exactly if no functor
throws and no call finds the ring full. -/
theorem run_unharmed_iff (hq : SpscQueue.new n = some q) (throws : α → Bool)
    (steps : List (FunctorStep α)) :
    (new q).Lowered throws (steps ++ [.doPendingFunctors]) ∧
        ((new q).run throws (steps ++ [.doPendingFunctors])).functors.invoked =
          ((new q).run throws (steps ++ [.doPendingFunctors])).functors.queued ↔
      (∀ cb, .queueInLoop cb ∈ steps → throws cb = false) ∧
        ∀ steps', steps' <+: steps → PendingFunctors.backlog steps' < q.size := by
  have hends : ∀ cb : α, FunctorStep.queueInLoop cb ∈ steps ↔
      FunctorStep.queueInLoop cb ∈ steps ++ [.doPendingFunctors] := by simp
  constructor
  · rintro ⟨hlowered, hall⟩
    have hunharmed := unharmed_run hq _ hlowered
    obtain ⟨hsteps, hlast⟩ := lowered_append_singleton.mp hlowered
    have hreturns := hlast rfl
    rw [run_append_singleton] at hreturns
    refine ⟨fun cb hcb => hunharmed.returned cb ?_,
      ((unharmed_run hq steps hsteps).doPendingFunctors hq hreturns).2⟩
    rw [hall, hunharmed.functors]
    exact (mem_queued q _ cb).mpr ((hends cb).mp hcb)
  · rintro ⟨hreturn, hfits⟩
    have hfits' : PendingFunctors.Fits q.size (steps ++ [.doPendingFunctors]) :=
      PendingFunctors.fits_append_singleton.mpr ⟨hfits, q.size_pos⟩
    have hlowered := lowered_of_returns hq (steps ++ [.doPendingFunctors])
      (fun cb hcb => hreturn cb ((hends cb).mpr hcb)) hfits'
    refine ⟨hlowered, ?_⟩
    obtain ⟨lo, items, hacc⟩ := PendingFunctors.accounted_run hq steps
    have hdone := (hacc.doPendingFunctors.kept hfits').2.1
    rw [(unharmed_run hq _ hlowered).functors, PendingFunctors.run_append]
    exact (hdone.trans (List.append_nil _)).symm

/-- Two functors that return. -/
theorem run_unharmed_iff_two :
    ((new (.smallest ℕ)).run (fun _ => false)
      ([.queueInLoop 7, .queueInLoop 8] ++ [.doPendingFunctors])).functors.invoked = [7, 8] := by
  have hboth := (run_unharmed_iff (SpscQueue.new_smallest ℕ) (fun _ => false)
    [.queueInLoop 7, .queueInLoop 8]).mpr ⟨fun _ _ => rfl, fun steps' hbefore => calc
      PendingFunctors.backlog steps' ≤ steps'.length := PendingFunctors.backlog_le_length steps'
      _ ≤ 2 := hbefore.length_le
      _ < 64 := by decide⟩
  exact hboth.2

/-- The second functor is lost with the exception of the first, and the flag stays up. -/
theorem not_unharmed_firstThrows :
    let throws : ℕ → Bool := fun cb => cb = 7
    let s := (new (.smallest ℕ)).run throws
      [.queueInLoop 7, .queueInLoop 8, .doPendingFunctors]
    s.callingPendingFunctors = true ∧ s.functors.invoked = [7] ∧ s.functors.queued = [7, 8] ∧
      s.functors.lfBuffer.popAll.2 = [] ∧ s.functors.pendingFunctors = [] := by decide

end FunctorLoop

end XNetty.Event
