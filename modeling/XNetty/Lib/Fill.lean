import Mathlib.Tactic

/-!
# Filling reserved space

Some cells of a block of storage are reserved and filled from the front, piece after piece. A piece
that does not fit is not copied at all. Actions that fill compose: what the composed action puts
there is what its parts do, one behind the other.

## Main definitions

* `Fill.Region` — storage with reserved cells.
* `Fill.Region.copy` — copying a piece.
* `Fill.Puts` — an action puts these cells there, if they fit.
-/

namespace Fill

variable {α β : Type*}

/-- Storage of which `room` cells from `base` on are reserved, the first `off` of them filled. -/
structure Region (α : Type*) where
  data : List α
  base : ℕ
  room : ℕ
  off : ℕ := 0

namespace Region

/-- The next cells overwritten, reserved or not. -/
def put (r : Region α) (xs : List α) : Region α :=
  { r with
    data := r.data.take (r.base + r.off) ++ xs ++ r.data.drop (r.base + r.off + xs.length)
    off := r.off + xs.length }

/-- The next cells overwritten, if they are reserved. -/
def copy (xs : List α) (r : Region α) : Option (Region α) :=
  if r.off + xs.length ≤ r.room then some (r.put xs) else none

/-- There is reserved space for `n` more cells. -/
structure Fits (r : Region α) (n : ℕ) : Prop where
  reserved : r.off + n ≤ r.room
  inside : r.base + r.room ≤ r.data.length

theorem put_nil (r : Region α) : r.put [] = r := by
  simp [put]

theorem put_append {r : Region α} {xs ys : List α} (h : r.Fits (xs.length + ys.length)) :
    r.put (xs ++ ys) = (r.put xs).put ys := by
  obtain ⟨hreserved, hinside⟩ := h
  have hfront : (r.data.take (r.base + r.off) ++ xs).length = r.base + r.off + xs.length := by
    simp only [List.length_append, List.length_take]
    omega
  have hplace : r.base + (r.off + xs.length) = r.base + r.off + xs.length := by omega
  have htail (rest : List α) :
      ((r.data.take (r.base + r.off) ++ xs) ++ rest).drop (r.base + r.off + xs.length + ys.length) =
        rest.drop ys.length := by
    rw [← hfront, List.drop_length_add_append]
  unfold put
  dsimp only
  rw [hplace, List.take_left' hfront, htail, List.drop_drop, List.length_append]
  simp only [List.append_assoc, Nat.add_assoc]

theorem Fits.mono {r : Region α} {m n : ℕ} (h : r.Fits n) (hle : m ≤ n) : r.Fits m :=
  ⟨(Nat.add_le_add_left hle _).trans h.reserved, h.inside⟩

theorem Fits.put {r : Region α} {xs : List α} {n : ℕ} (h : r.Fits (xs.length + n)) :
    (r.put xs).Fits n := by
  obtain ⟨hreserved, hinside⟩ := h
  refine ⟨by simpa [Region.put, Nat.add_assoc] using hreserved, ?_⟩
  simp only [Region.put, List.length_append, List.length_take, List.length_drop]
  omega

end Region

/-- The action puts `xs` behind what is there, wherever they fit. -/
def Puts (act : Region α → Option (Region α)) (xs : List α) : Prop :=
  ∀ r, r.Fits xs.length → act r = some (r.put xs)

theorem puts_copy (xs : List α) : Puts (Region.copy xs) xs :=
  fun _ h => if_pos h.reserved

theorem puts_some : Puts (some : Region α → Option (Region α)) [] := by
  intro r _
  rw [r.put_nil]

/-- One action behind the other. -/
theorem Puts.bind {act next : Region α → Option (Region α)} {xs ys : List α} (h : Puts act xs)
    (hnext : Puts next ys) : Puts (fun r => act r >>= next) (xs ++ ys) := by
  intro r hfits
  rw [List.length_append] at hfits
  dsimp only
  rw [h r (hfits.mono (Nat.le_add_right _ _)), Region.put_append hfits]
  exact hnext _ hfits.put

/-- An action for each element. -/
theorem puts_foldlM {act : β → Region α → Option (Region α)} {piece : β → List α}
    (h : ∀ b, Puts (act b) (piece b)) (bs : List β) :
    Puts (fun r => bs.foldlM (fun r b => act b r) r) (bs.flatMap piece) := by
  induction bs with
  | nil => exact puts_some
  | cons b bs ih =>
    simp only [List.foldlM_cons, List.flatMap_cons]
    exact (h b).bind ih

theorem Puts.ite {act : Region α → Option (Region α)} {xs : List α} (h : Puts act xs) (c : Prop)
    [Decidable c] : Puts (fun r => if c then act r else some r) (if c then xs else []) := by
  split_ifs
  · exact h
  · exact puts_some

end Fill
