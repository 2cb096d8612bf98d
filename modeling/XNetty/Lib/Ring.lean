import Mathlib.Logic.Function.Basic
import Mathlib.Tactic

/-!
# Rings of cells

Positions count up without end and are taken modulo the number of cells, so a queue kept in a
ring is a window of consecutive positions, no longer than the ring. Two positions of a window
are different cells; writing behind the window and leaving its first position are queue
operations.

## Main definitions

* `Ring.Holds` — the cells hold a list from a position on.
-/

namespace Ring

variable {β : Type*} {n : ℕ}

theorem mod_eq_mod_iff {i j : ℕ} (hij : i ≤ j) (hj : j < i + n) : i % n = j % n ↔ i = j := by
  constructor
  · intro h
    have hdvd : n ∣ j - i := (Nat.modEq_iff_dvd' hij).mp h
    have hzero : j - i = 0 := Nat.eq_zero_of_dvd_of_lt hdvd (by omega)
    omega
  · rintro rfl
    rfl

/-- The next index is the first one again when the window is as long as the ring. -/
theorem mod_eq_mod_succ_iff {i j : ℕ} (hij : i ≤ j) (hj : j < i + n) :
    (j + 1) % n = i % n ↔ j + 1 = i + n := by
  by_cases hfull : j + 1 = i + n
  · simp [hfull]
  · rw [eq_comm, mod_eq_mod_iff (by omega) (by omega)]
    omega

/-- The cells hold `items` from position `lo` on. -/
structure Holds (n : ℕ) (cells : ℕ → β) (lo : ℕ) (items : List β) : Prop where
  fits : items.length ≤ n
  cell : ∀ i (h : i < items.length), cells ((lo + i) % n) = items[i]

theorem holds_nil (n : ℕ) (cells : ℕ → β) (lo : ℕ) : Holds n cells lo [] :=
  ⟨Nat.zero_le n, fun _ h => absurd h (Nat.not_lt_zero _)⟩

variable {cells : ℕ → β} {lo : ℕ} {items : List β}

/-- Writing behind the window. -/
theorem Holds.push (h : Holds n cells lo items) (hroom : items.length < n) (x : β) :
    Holds n (Function.update cells ((lo + items.length) % n) x) lo (items ++ [x]) := by
  refine ⟨by simpa using hroom, ?_⟩
  intro i hi
  by_cases hlast : i = items.length
  · subst hlast
    simp
  · have hlt : i < items.length := by
      rw [List.length_append, List.length_singleton] at hi
      omega
    have hne : (lo + i) % n ≠ (lo + items.length) % n := by
      rw [ne_eq, mod_eq_mod_iff (by omega) (by omega)]
      omega
    rw [Function.update_of_ne hne, h.cell i hlt, List.getElem_append_left hlt]

theorem Holds.front {x : β} (h : Holds n cells lo (x :: items)) : cells (lo % n) = x :=
  h.cell 0 (by simp)

/-- Leaving the first position of the window, whatever becomes of its cell. -/
theorem Holds.pop {x : β} (h : Holds n cells lo (x :: items)) (y : β) :
    Holds n (Function.update cells (lo % n) y) (lo + 1) items := by
  have hfits := h.fits
  rw [List.length_cons] at hfits
  refine ⟨by omega, ?_⟩
  intro i hi
  have hne : (lo + 1 + i) % n ≠ lo % n := by
    rw [ne_eq, eq_comm, mod_eq_mod_iff (by omega) (by omega)]
    omega
  rw [Function.update_of_ne hne, Nat.add_assoc, Nat.add_comm 1 i]
  exact h.cell (i + 1) (by simpa using hi)

end Ring
