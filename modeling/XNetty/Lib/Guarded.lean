import Mathlib.Tactic

/-!
# Events behind a guard

Some events of a trace are forbidden until an event of another kind has opened the way.

## Main definitions

* `Guarded` — no forbidden event comes before the first opening one.
* `guarded_append` — the law of a trace that goes on.
-/

namespace XNetty

variable {α : Type*}

/-- In front of the first event that `opens`, nothing is `forbidden`. -/
def Guarded (opens forbidden : α → Bool) (trace : List α) : Prop :=
  ∀ e ∈ trace.takeWhile fun e => !opens e, forbidden e = false

instance (opens forbidden : α → Bool) (trace : List α) :
    Decidable (Guarded opens forbidden trace) :=
  inferInstanceAs (Decidable (∀ e ∈ trace.takeWhile fun e => !opens e, forbidden e = false))

namespace Guarded

variable {opens forbidden : α → Bool} {xs ys : List α}

@[simp] theorem nil : Guarded opens forbidden [] := nofun

theorem cons_iff {e : α} :
    Guarded opens forbidden (e :: xs) ↔
      opens e = true ∨ forbidden e = false ∧ Guarded opens forbidden xs := by
  unfold Guarded
  cases hopen : opens e with
  | true => simp [hopen]
  | false => simp [hopen]

/-- What comes later is guarded by itself, unless the way has been opened. -/
theorem append_iff : Guarded opens forbidden (xs ++ ys) ↔
    Guarded opens forbidden xs ∧ ((∃ e ∈ xs, opens e = true) ∨ Guarded opens forbidden ys) := by
  induction xs with
  | nil => simp
  | cons e xs ih =>
    rw [List.cons_append, cons_iff, cons_iff, ih, List.exists_mem_cons_iff]
    by_cases hopen : opens e = true
    · simp only [hopen, true_or, true_and]
    · rw [or_iff_right hopen, or_iff_right hopen, or_iff_right hopen, and_assoc]

/-- A trace that neither opens nor does what is forbidden might as well not be there. -/
theorem append_iff_of_quiet (hquiet : ∀ e ∈ xs, opens e = false ∧ forbidden e = false) :
    Guarded opens forbidden (xs ++ ys) ↔ Guarded opens forbidden ys := by
  have hxs : Guarded opens forbidden xs := fun e he =>
    (hquiet e ((List.takeWhile_prefix _).subset he)).2
  have hclosed : ¬ ∃ e ∈ xs, opens e = true := by
    rintro ⟨e, he, hopen⟩
    rw [(hquiet e he).1] at hopen
    cases hopen
  rw [append_iff, or_iff_right hclosed]
  exact and_iff_right hxs

end Guarded

end XNetty
