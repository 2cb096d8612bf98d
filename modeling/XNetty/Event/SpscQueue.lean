import XNetty.Lib.Ring
import Mathlib.Data.Nat.Bitwise

/-!
# The ring between the threads

`SpscQueue` keeps its items between `head_` and `tail_`, two indices that a mask wraps around.
The ring is empty when they are equal, so one cell stays free.

## Main definitions

* `SpscQueue` — the cells and the two indices; a moved-from or fresh cell is `none`.
* `SpscQueue.push`, `SpscQueue.popAll` — the two calls, each undisturbed.
* `SpscQueue.Keeps` — the items the queue keeps, as a list.
-/

namespace XNetty.Event

/-- `size_t p = 1; while (p < n) p <<= 1;`, for as many turns as `size_t` has bits: once `p` is
zero it stays there. -/
def doubled (n : ℕ) : ℕ → ℕ → Option ℕ
  | 0, _ => none
  | turns + 1, p => if p < n then doubled n turns (p * 2 % 2 ^ 64) else some p

/-- `SpscQueue::nextPowerOfTwo`, or `none` where its loop does not end. -/
def nextPowerOfTwo (n : ℕ) : Option ℕ := if n = 0 then some 1 else doubled n 65 1

theorem doubled_pow {n turns p r : ℕ} (hn : 0 < n) (hp : p = 0 ∨ ∃ k ≤ 63, p = 2 ^ k)
    (h : doubled n turns p = some r) : ∃ k ≤ 63, r = 2 ^ k := by
  induction turns generalizing p with
  | zero => cases h
  | succ turns ih =>
    rw [doubled] at h
    split at h
    · refine ih ?_ h
      obtain rfl | ⟨k, hk, rfl⟩ := hp
      · exact .inl rfl
      · obtain rfl | hk := Nat.eq_or_lt_of_le hk
        · exact .inl (by decide)
        · have hlt : 2 ^ (k + 1) < 2 ^ 64 := Nat.pow_lt_pow_right (by decide) (by omega)
          exact .inr ⟨k + 1, hk, by rw [← Nat.pow_succ, Nat.mod_eq_of_lt hlt]⟩
    · obtain rfl := Option.some.inj h
      obtain rfl | hp := hp
      · omega
      · exact hp

theorem nextPowerOfTwo_pow {n r : ℕ} (h : nextPowerOfTwo n = some r) :
    ∃ k ≤ 63, r = 2 ^ k := by
  unfold nextPowerOfTwo at h
  split at h
  · exact ⟨0, by decide, (Option.some.inj h).symm⟩
  · exact doubled_pow (by omega) (.inr ⟨0, by decide, rfl⟩) h

/-- A turn for a size that a word can hold as a power of two. -/
theorem doubled_turn {n k : ℕ} (hn : n ≤ 2 ^ 63) (hlt : 2 ^ k < n) (turns : ℕ) :
    k < 63 ∧ doubled n (turns + 1) (2 ^ k) = doubled n turns (2 ^ (k + 1)) := by
  have hk : k < 63 := (Nat.pow_lt_pow_iff_right (by decide)).mp (hlt.trans_le hn)
  have hfits : 2 ^ (k + 1) < 2 ^ 64 := Nat.pow_lt_pow_right (by decide) (by omega)
  refine ⟨hk, ?_⟩
  rw [doubled, if_pos hlt, ← Nat.pow_succ, Nat.mod_eq_of_lt hfits]

theorem doubled_isSome {n turns k : ℕ} (hn : n ≤ 2 ^ 63) (hk : k ≤ 63) (hturns : 64 ≤ k + turns) :
    ∃ r, doubled n turns (2 ^ k) = some r ∧ n ≤ r := by
  induction turns generalizing k with
  | zero => omega
  | succ turns ih =>
    by_cases hlt : 2 ^ k < n
    · obtain ⟨hk, hturn⟩ := doubled_turn hn hlt turns
      rw [hturn]
      exact ih hk (by omega)
    · exact ⟨2 ^ k, if_neg hlt, by omega⟩

/-- **The loop ends for every size up to `2 ^ 63`.** -/
theorem nextPowerOfTwo_isSome {n : ℕ} (hn : n ≤ 2 ^ 63) :
    ∃ r, nextPowerOfTwo n = some r ∧ n ≤ r := by
  unfold nextPowerOfTwo
  by_cases hzero : n = 0
  · exact ⟨1, if_pos hzero, by omega⟩
  · rw [if_neg hzero]
    exact doubled_isSome (k := 0) hn (by decide) (by decide)

example : nextPowerOfTwo 5 = some 8 := by decide

/-- The mask is one less than a power of two, so `&` takes an index around the ring. -/
structure SpscQueue (α : Type*) where
  buf : ℕ → Option α
  sizeMask : ℕ
  head : ℕ := 0
  tail : ℕ := 0
  size_pow : ∃ k, sizeMask + 1 = 2 ^ k

namespace SpscQueue

variable {α : Type*}

/-- The number of cells. -/
def size (q : SpscQueue α) : ℕ := q.sizeMask + 1

theorem and_sizeMask (q : SpscQueue α) (i : ℕ) : i &&& q.sizeMask = i % q.size := by
  obtain ⟨k, hk⟩ := q.size_pow
  rw [size, hk, ← Nat.and_two_pow_sub_one_eq_mod, ← hk, Nat.add_sub_cancel]

theorem size_pos (q : SpscQueue α) : 0 < q.size := Nat.succ_pos _

/-- `explicit SpscQueue(size_t size)`. -/
def new (n : ℕ) : Option (SpscQueue α) :=
  match h : nextPowerOfTwo n with
  | none => none
  | some p => some
    { buf := fun _ => none
      sizeMask := p - 1
      size_pow := by
        obtain ⟨k, -, rfl⟩ := nextPowerOfTwo_pow h
        exact ⟨k, Nat.sub_add_cancel Nat.one_le_two_pow⟩ }

theorem new_eq {n p : ℕ} (h : nextPowerOfTwo n = some p) :
    ∃ q : SpscQueue α, new n = some q ∧ q.size = p ∧ q.head = 0 ∧ q.tail = 0 := by
  obtain ⟨k, -, hk⟩ := nextPowerOfTwo_pow h
  have hpos : 1 ≤ p := hk ▸ Nat.one_le_two_pow
  unfold new
  split
  · rename_i hnone
    rw [h] at hnone
    cases hnone
  · rename_i p' hsome
    obtain rfl : p = p' := Option.some.inj (h.symm.trans hsome)
    exact ⟨_, rfl, Nat.sub_add_cancel hpos, rfl, rfl⟩

/-- The smallest ring that `EventLoop::setEventQueueSize` gives a loop. -/
def smallest (α : Type*) : SpscQueue α :=
  { buf := fun _ => none, sizeMask := 63, size_pow := ⟨6, rfl⟩ }

theorem new_smallest (α : Type*) : new 64 = some (smallest α) := rfl

/-- `SpscQueue::push`. -/
def push (q : SpscQueue α) (item : Option α) : SpscQueue α × Bool :=
  let nt := (q.tail + 1) &&& q.sizeMask
  if nt = q.head then (q, false)
  else ({ q with buf := Function.update q.buf q.tail item, tail := nt }, true)

/-- The loop of `SpscQueue::popAll` from index `h` up to `t`; it takes at most as many turns as
there are cells. -/
def drain (t : ℕ) : ℕ → SpscQueue α → ℕ → SpscQueue α × List (Option α)
  | 0, q, h => ({ q with head := h }, [])
  | turns + 1, q, h =>
    if h = t then ({ q with head := h }, [])
    else
      let moved := { q with buf := Function.update q.buf h none }
      let rest := drain t turns moved ((h + 1) &&& q.sizeMask)
      (rest.1, q.buf h :: rest.2)

/-- `SpscQueue::popAll`. -/
def popAll (q : SpscQueue α) : SpscQueue α × List (Option α) := drain q.tail q.size q q.head

/-- The queue keeps `items`, the first of them at position `lo`. -/
structure Keeps (q : SpscQueue α) (lo : ℕ) (items : List (Option α)) : Prop where
  head : q.head = lo % q.size
  tail : q.tail = (lo + items.length) % q.size
  room : items.length < q.size
  holds : Ring.Holds q.size q.buf lo items

theorem keeps_nil {q : SpscQueue α} (hhead : q.head = 0) (htail : q.tail = 0) : q.Keeps 0 [] where
  head := by simp [hhead]
  tail := by simp [htail]
  room := q.size_pos
  holds := Ring.holds_nil _ _ _

theorem new_keeps {n : ℕ} {q : SpscQueue α} (h : new n = some q) : q.Keeps 0 [] := by
  unfold new at h
  split at h
  · cases h
  · cases h
    exact keeps_nil rfl rfl

variable {q : SpscQueue α} {lo : ℕ} {items : List (Option α)}

/-- **`push` refuses exactly when all cells but one are in use.** -/
theorem Keeps.full_iff (h : q.Keeps lo items) :
    (q.tail + 1) &&& q.sizeMask = q.head ↔ items.length + 1 = q.size := by
  have hroom := h.room
  rw [and_sizeMask, h.head, h.tail, Nat.mod_add_mod,
    Ring.mod_eq_mod_succ_iff (Nat.le_add_right _ _) (by omega)]
  omega

theorem Keeps.push (h : q.Keeps lo items) (hroom : items.length + 1 < q.size) (item : Option α) :
    (q.push item).2 = true ∧ (q.push item).1.Keeps lo (items ++ [item]) ∧
      (q.push item).1.size = q.size := by
  have hnt : ¬ (q.tail + 1) &&& q.sizeMask = q.head := by
    rw [h.full_iff]
    omega
  simp only [SpscQueue.push, if_neg hnt]
  refine ⟨trivial, ⟨h.head, ?_, by rw [List.length_append]; exact hroom, ?_⟩, rfl⟩
  · rw [List.length_append, List.length_singleton, ← Nat.add_assoc]
    change (q.tail + 1) &&& q.sizeMask = _
    rw [and_sizeMask, h.tail, Nat.mod_add_mod]
    rfl
  · change Ring.Holds q.size (Function.update q.buf q.tail item) lo _
    rw [h.tail]
    exact h.holds.push (by omega) item

theorem Keeps.push_full (h : q.Keeps lo items) (hfull : items.length + 1 = q.size)
    (item : Option α) : q.push item = (q, false) := by
  unfold SpscQueue.push
  dsimp only
  rw [if_pos (h.full_iff.mpr hfull)]

/-- The walk of `popAll` around the ring. -/
theorem drain_eq {t turns : ℕ} (htail : t = (lo + items.length) % q.size)
    (hroom : items.length < q.size) (hholds : Ring.Holds q.size q.buf lo items)
    (hturns : items.length < turns) :
    (drain t turns q (lo % q.size)).2 = items ∧ (drain t turns q (lo % q.size)).1.head = t ∧
      (drain t turns q (lo % q.size)).1.tail = q.tail ∧
      (drain t turns q (lo % q.size)).1.size = q.size := by
  induction items generalizing q lo turns with
  | nil =>
    obtain ⟨turns, rfl⟩ := Nat.exists_eq_succ_of_ne_zero (by omega : turns ≠ 0)
    have heq : lo % q.size = t := htail.symm
    rw [drain, if_pos heq]
    exact ⟨rfl, heq, rfl, rfl⟩
  | cons item items ih =>
    obtain ⟨turns, rfl⟩ := Nat.exists_eq_succ_of_ne_zero (by omega : turns ≠ 0)
    rw [List.length_cons] at htail hroom hturns
    have hne : lo % q.size ≠ t := by
      rw [htail, ne_eq, Ring.mod_eq_mod_iff (by omega) (by omega)]
      omega
    have hnext : (lo % q.size + 1) &&& q.sizeMask = (lo + 1) % q.size := by
      rw [and_sizeMask, Nat.mod_add_mod]
    rw [drain, if_neg hne, hnext]
    obtain ⟨hout, hrest⟩ := ih (q := { q with buf := Function.update q.buf (lo % q.size) none })
      (by rw [htail, Nat.add_assoc, Nat.add_comm 1]; rfl)
      (by change _ < q.size; omega) (hholds.pop none) (show items.length < turns by omega)
    exact ⟨congrArg₂ List.cons hholds.front hout, hrest⟩

/-- **`popAll` takes everything, in order.** -/
theorem Keeps.popAll (h : q.Keeps lo items) :
    q.popAll.2 = items ∧ q.popAll.1.Keeps (lo + items.length) [] ∧ q.popAll.1.size = q.size := by
  have hdrain := drain_eq h.tail h.room h.holds h.room
  rw [← h.head] at hdrain
  obtain ⟨hout, hhead, htail, hsize⟩ := hdrain
  refine ⟨hout, ⟨?_, ?_, size_pos _, Ring.holds_nil _ _ _⟩, hsize⟩
  · rw [SpscQueue.popAll, hhead, hsize, h.tail]
  · rw [SpscQueue.popAll, htail, hsize, h.tail]
    simp

end SpscQueue

end XNetty.Event
