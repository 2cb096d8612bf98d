import Mathlib.Order.WellFounded

/-!
# Loops with their test at the end

A turn of the loop either ends it with a result or leaves a state for the next turn. With so much
fuel a loop makes so many turns.

## Main definitions

* `Turn` — what a turn comes to.
* `run` — a loop with fuel.
* `run_spec`, `exists_run` — what holds when it ends, and that it ends.
-/

namespace DoWhile

variable {σ ρ : Type*}

/-- What a turn comes to. -/
inductive Turn (σ ρ : Type*) where
  | again (s : σ)
  | done (r : ρ)

/-- The result of the loop, if so many turns are enough. -/
def run (body : σ → Turn σ ρ) : ℕ → σ → Option ρ
  | 0, _ => none
  | fuel + 1, s =>
    match body s with
    | .again s' => run body fuel s'
    | .done r => some r

variable {body : σ → Turn σ ρ}

theorem run_of_again {s s' : σ} (h : body s = .again s') (fuel : ℕ) :
    run body (fuel + 1) s = run body fuel s' := by
  rw [run, h]

theorem run_of_done {s : σ} {r : ρ} (h : body s = .done r) (fuel : ℕ) :
    run body (fuel + 1) s = some r := by
  rw [run, h]

/-- **When the loop ends**: what its last turn makes of an invariant. -/
theorem run_spec (I : σ → Prop) {Q : ρ → Prop}
    (hagain : ∀ s s', I s → body s = .again s' → I s')
    (hdone : ∀ s r, I s → body s = .done r → Q r) {s : σ} (hs : I s) {fuel : ℕ} {r : ρ}
    (h : run body fuel s = some r) : Q r := by
  induction fuel generalizing s with
  | zero => cases h
  | succ fuel ih =>
    cases hturn : body s with
    | again s' =>
      rw [run_of_again hturn] at h
      exact ih (hagain s s' hs hturn) h
    | done r' =>
      rw [run_of_done hturn] at h
      obtain rfl := Option.some.inj h
      exact hdone s r' hs hturn

/-- **The loop ends** if every turn that goes on lowers a measure. -/
theorem exists_run {α : Type*} [LT α] [WellFoundedLT α] (I : σ → Prop) (μ : σ → α)
    (hagain : ∀ s s', I s → body s = .again s' → I s' ∧ μ s' < μ s) {s : σ} (hs : I s) :
    ∃ fuel r, run body fuel s = some r := by
  generalize hm : μ s = m
  induction m using WellFoundedLT.induction generalizing s with
  | ind m ih =>
    subst hm
    cases hturn : body s with
    | again s' =>
      obtain ⟨hs', hlower⟩ := hagain s s' hs hturn
      obtain ⟨fuel, r, hrun⟩ := ih (μ s') hlower hs' rfl
      exact ⟨fuel + 1, r, (run_of_again hturn fuel).trans hrun⟩
    | done r => exact ⟨1, r, run_of_done hturn 0⟩

end DoWhile
