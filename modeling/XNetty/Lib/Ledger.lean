import Mathlib.Tactic

/-!
# Ledgers of a running machine

A machine takes one operation after the other, each with an entry to be booked. Its total
is in balance while it equals the opening total with every entry behind it. A run is in
balance at each of its moments exactly when each of its steps books its entry.

## Main definitions

* `Along` — a condition that every step of a run meets.
* `Books` — a step adds its entry to the total.
-/

namespace Ledger

variable {σ ι α : Type*} {step : σ → ι → σ}

/-- Every step of the run from `s` meets `P`. -/
def Along (step : σ → ι → σ) (P : σ → ι → Prop) : σ → List ι → Prop
  | _, [] => True
  | s, a :: as => P s a ∧ Along step P (step s a) as

instance decidableAlong (P : σ → ι → Prop) [∀ s a, Decidable (P s a)] :
    (s : σ) → (as : List ι) → Decidable (Along step P s as)
  | _, [] => .isTrue trivial
  | s, a :: as =>
    have : Decidable (Along step P (step s a) as) := decidableAlong P (step s a) as
    inferInstanceAs (Decidable (P s a ∧ Along step P (step s a) as))

theorem Along.mono {P Q : σ → ι → Prop} (h : ∀ s a, P s a → Q s a) {s : σ} {as : List ι}
    (hs : Along step P s as) : Along step Q s as := by
  induction as generalizing s with
  | nil => trivial
  | cons a as ih => exact ⟨h s a hs.1, ih hs.2⟩

theorem along_congr {P Q : σ → ι → Prop} (h : ∀ s a, P s a ↔ Q s a) (s : σ) (as : List ι) :
    Along step P s as ↔ Along step Q s as :=
  ⟨Along.mono fun s a => (h s a).mp, Along.mono fun s a => (h s a).mpr⟩

theorem along_of_forall {P : σ → ι → Prop} (h : ∀ s a, P s a) (s : σ) (as : List ι) :
    Along step P s as := by
  induction as generalizing s with
  | nil => trivial
  | cons a as ih => exact ⟨h s a, ih (step s a)⟩

theorem along_append {P : σ → ι → Prop} (s : σ) (as bs : List ι) :
    Along step P s (as ++ bs) ↔ Along step P s as ∧ Along step P (as.foldl step s) bs := by
  induction as generalizing s with
  | nil => exact (and_iff_right trivial).symm
  | cons a as ih => rw [List.cons_append, Along, Along, ih, and_assoc, List.foldl_cons]

/-- A condition that follows at each step from an invariant and another condition. -/
theorem Along.strengthen {P Q : σ → ι → Prop} (I : σ → Prop)
    (hstep : ∀ s a, I s → I (step s a)) (h : ∀ s a, I s → P s a → Q s a) {s : σ} (hs : I s)
    {as : List ι} (hP : Along step P s as) : Along step Q s as := by
  induction as generalizing s with
  | nil => trivial
  | cons a as ih => exact ⟨h s a hs hP.1, ih (hstep s a hs) hP.2⟩

/-- What a step that meets the condition preserves, a run whose steps meet it preserves. -/
theorem Along.preserves {P : σ → ι → Prop} (I : σ → Prop)
    (hstep : ∀ s a, I s → P s a → I (step s a)) {s : σ} (hs : I s) {as : List ι}
    (hP : Along step P s as) : I (as.foldl step s) := by
  induction as generalizing s with
  | nil => exact hs
  | cons a as ih => exact ih (hstep s a hs hP.1) hP.2

/-- Conditions that agree under an invariant agree along a run that keeps it. -/
theorem along_iff_of_invariant {P Q : σ → ι → Prop} (I : σ → Prop)
    (hPQ : ∀ s a, I s → (P s a ↔ Q s a)) (hstep : ∀ s a, I s → Q s a → I (step s a)) {s : σ}
    (hs : I s) (as : List ι) : Along step P s as ↔ Along step Q s as := by
  induction as generalizing s with
  | nil => exact Iff.rfl
  | cons a as ih =>
    rw [Along, Along, hPQ s a hs]
    exact and_congr_right fun hQ => ih (hstep s a hs hQ)

/-- What one step preserves, a run preserves. -/
theorem foldl_preserves (I : σ → Prop) (hstep : ∀ s a, I s → I (step s a)) {s : σ} (hs : I s)
    (as : List ι) : I (as.foldl step s) := by
  induction as generalizing s with
  | nil => exact hs
  | cons a as ih => exact ih (hstep s a hs)

/-- What a step keeps exactly when it meets a condition, a run keeps exactly when all of its
steps meet it; `I` holds at each of its states. -/
theorem foldl_iff_along {G : σ → Prop} {P : σ → ι → Prop} (I : σ → Prop)
    (hI : ∀ s a, I s → I (step s a)) (hstep : ∀ s a, I s → (G (step s a) ↔ G s ∧ P s a)) {s : σ}
    (hs : I s) (as : List ι) : G (as.foldl step s) ↔ G s ∧ Along step P s as := by
  induction as generalizing s with
  | nil => exact (and_iff_left trivial).symm
  | cons a as ih => rw [List.foldl_cons, ih (hI s a hs), hstep s a hs, and_assoc, Along]

/-- **At every moment**: each step meets the condition in the state that the run has reached. -/
theorem along_iff_prefix {P : σ → ι → Prop} (s : σ) (as : List ι) :
    Along step P s as ↔ ∀ done a, done ++ [a] <+: as → P (done.foldl step s) a := by
  induction as generalizing s with
  | nil => exact iff_of_true trivial fun done a h => absurd (List.prefix_nil.mp h) (by simp)
  | cons b as ih =>
    rw [Along, ih]
    constructor
    · rintro ⟨hb, hrest⟩ done a h
      cases done with
      | nil =>
        obtain ⟨rfl, -⟩ := List.cons_prefix_cons.mp h
        exact hb
      | cons d done =>
        obtain ⟨rfl, htail⟩ := List.cons_prefix_cons.mp h
        exact hrest done a htail
    · intro h
      exact ⟨h [] b (by simp), fun done a hdone => h (b :: done) a (by simpa using hdone)⟩

/-- A run with a step that does not meet the condition has a first one. -/
theorem exists_first_of_not_along {P : σ → ι → Prop} {s : σ} {as : List ι}
    (h : ¬Along step P s as) :
    ∃ done a, done ++ [a] <+: as ∧ Along step P s done ∧ ¬P (done.foldl step s) a := by
  induction as generalizing s with
  | nil => exact absurd trivial h
  | cons b as ih =>
    by_cases hb : P s b
    · obtain ⟨done, a, hdone, halong, ha⟩ := ih fun hrest => h ⟨hb, hrest⟩
      exact ⟨b :: done, a, by simpa using hdone, ⟨hb, halong⟩, ha⟩
    · exact ⟨[], b, by simp, trivial, hb⟩

variable (total : σ → List α) (entry : ι → List α)

/-- The step books its entry behind the total. -/
def Books (step : σ → ι → σ) (s : σ) (a : ι) : Prop := total (step s a) = total s ++ entry a

variable {total entry}

/-- A run of steps that book their entries ends in balance. -/
theorem total_foldl {s : σ} {as : List ι} (h : Along step (Books total entry step) s as) :
    total (as.foldl step s) = total s ++ as.flatMap entry := by
  induction as generalizing s with
  | nil => simp
  | cons a as ih =>
    obtain ⟨ha, has⟩ := h
    rw [List.foldl_cons, ih has, ha, List.flatMap_cons, List.append_assoc]

/-- **In balance at every moment** is the same as booking at every step. -/
theorem balanced_iff_books (s : σ) (as : List ι) :
    (∀ done, done <+: as → total (done.foldl step s) = total s ++ done.flatMap entry) ↔
      Along step (Books total entry step) s as := by
  induction as generalizing s with
  | nil => simp [Along]
  | cons a as ih =>
    constructor
    · intro h
      have ha : Books total entry step s a := by simpa [Books] using h [a] (by simp)
      refine ⟨ha, (ih _).mp fun done hdone => ?_⟩
      have hcons := h (a :: done) (by simpa using hdone)
      rwa [List.foldl_cons, List.flatMap_cons, ← List.append_assoc, ← ha] at hcons
    · rintro ⟨ha, has⟩ done hdone
      cases done with
      | nil => simp
      | cons b done =>
        obtain ⟨rfl, htail⟩ := List.cons_prefix_cons.mp hdone
        rw [List.foldl_cons, (ih _).mpr has done htail, ha, List.flatMap_cons, List.append_assoc]

end Ledger
