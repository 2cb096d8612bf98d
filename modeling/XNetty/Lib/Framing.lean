import XNetty.Lib.Incremental

/-!
# Framings

A framing tells from the front of a stream how long the first message is, once enough of it
is there. Cutting a stream into messages is the incremental decoder that gives out the
messages themselves, and where the cuts fall is a matter of lengths alone.

## Main definitions

* `Framing` — the length of the first message.
* `Framing.decoder` — cutting a stream into messages.
* `Framing.lastBoundary` — the last end of a message up to a position.
* `Framing.ended` — the messages that end up to a position.
-/

namespace Incremental

/-- The length of the message in front, with the laws that make it incremental. -/
structure Framing (α : Type*) where
  size : List α → Option ℕ
  size_bounds : ∀ {xs n}, size xs = some n → 0 < n ∧ n ≤ xs.length
  stable : ∀ {xs n} (ys : List α), size xs = some n → size (xs ++ ys) = some n

namespace Framing

variable {α : Type*} (f : Framing α)

/-- The whole list is one message. -/
def IsMessage (p : List α) : Prop := f.size p = some p.length

def decoder : Decoder α Unit (List α) where
  parse _ xs :=
    match f.size xs with
    | none => .more
    | some n => .done n () [xs.take n]
  parse_nil _ := by
    cases h : f.size [] with
    | none => rfl
    | some n =>
      have := f.size_bounds h
      simp at this
      omega
  done_bounds {_ xs _ _ _} h := by
    cases hs : f.size xs with
    | none => simp [hs] at h
    | some n =>
      simp only [hs, Verdict.done.injEq] at h
      exact h.1 ▸ f.size_bounds hs
  halt_bound {_ xs _ _ _} h := by
    cases hs : f.size xs <;> simp [hs] at h
  stable {_ xs} ys h := by
    cases hs : f.size xs with
    | none => simp [hs] at h
    | some n => simp [f.stable ys hs, List.take_append_of_le_length (f.size_bounds hs).2]

variable {f}

theorem drain_of_none {xs : List α} (h : f.size xs = none) :
    f.decoder.drain () xs = ⟨(), [], xs, []⟩ :=
  Decoder.drain_of_more (by simp [decoder, h])

theorem drain_of_some {xs : List α} {n : ℕ} (h : f.size xs = some n) :
    f.decoder.drain () xs =
      { f.decoder.drain () (xs.drop n) with
        out := xs.take n :: (f.decoder.drain () (xs.drop n)).out } := by
  have hparse : f.decoder.parse () xs = .done n () [xs.take n] := by simp [decoder, h]
  exact Decoder.drain_of_done hparse

/-- **Cutting loses nothing**: the messages, then the rest. -/
theorem flatten_drain (xs : List α) :
    (f.decoder.drain () xs).out.flatten ++ (f.decoder.drain () xs).rest = xs ∧
    (f.decoder.drain () xs).dropped = [] ∧
    f.size (f.decoder.drain () xs).rest = none := by
  induction hn : xs.length using Nat.strong_induction_on generalizing xs with
  | _ n ih =>
    cases hs : f.size xs with
    | none => simp [drain_of_none hs, hs]
    | some k =>
      have hk := f.size_bounds hs
      obtain ⟨hout, hdrop, hrest⟩ := ih (xs.drop k).length
        (by simp only [List.length_drop]; omega) (xs.drop k) rfl
      rw [drain_of_some hs]
      refine ⟨?_, hdrop, hrest⟩
      rw [List.flatten_cons, List.append_assoc, hout, List.take_append_drop]

theorem rest_of_out_eq_nil {xs : List α} (h : (f.decoder.drain () xs).out = []) :
    (f.decoder.drain () xs).rest = xs := by
  have hsplit := (flatten_drain (f := f) xs).1
  rwa [h] at hsplit

theorem length_rest_le (xs : List α) : (f.decoder.drain () xs).rest.length ≤ xs.length := by
  have hsplit := congrArg List.length (flatten_drain (f := f) xs).1
  simp only [List.length_append] at hsplit
  omega

theorem drop_rest (xs : List α) :
    xs.drop (xs.length - (f.decoder.drain () xs).rest.length) = (f.decoder.drain () xs).rest := by
  have hsplit := (flatten_drain (f := f) xs).1
  have hlen := congrArg List.length hsplit
  rw [List.length_append] at hlen
  have hout : xs.length - (f.decoder.drain () xs).rest.length =
      (f.decoder.drain () xs).out.flatten.length := by omega
  calc xs.drop (xs.length - (f.decoder.drain () xs).rest.length)
      = ((f.decoder.drain () xs).out.flatten ++ (f.decoder.drain () xs).rest).drop
          (f.decoder.drain () xs).out.flatten.length := by rw [hout, hsplit]
    _ = (f.decoder.drain () xs).rest := List.drop_left

/-- Nothing is given out exactly when everything is kept. -/
theorem drain_out_eq_nil {xs : List α} :
    (f.decoder.drain () xs).out = [] ↔ (f.decoder.drain () xs).rest.length = xs.length := by
  cases hs : f.size xs with
  | none => simp [drain_of_none hs]
  | some n =>
    have hn := f.size_bounds hs
    have hle := length_rest_le (f := f) (xs.drop n)
    rw [List.length_drop] at hle
    simp only [drain_of_some hs, List.cons_ne_nil, false_iff]
    omega

/-- A message in front is cut off first. -/
theorem drain_cons {p : List α} (hp : f.IsMessage p) (xs : List α) :
    f.decoder.drain () (p ++ xs) =
      { f.decoder.drain () xs with out := p :: (f.decoder.drain () xs).out } := by
  rw [drain_of_some (f.stable xs hp), List.take_left, List.drop_left]

/-- **Cutting in two pieces**: what the first leaves goes in front of the second. -/
theorem drain_append (xs : List α) {ys : List α} (hys : ys ≠ []) :
    f.decoder.drain () (xs ++ ys) =
      { f.decoder.drain () ((f.decoder.drain () xs).rest ++ ys) with
        out := (f.decoder.drain () xs).out ++
          (f.decoder.drain () ((f.decoder.drain () xs).rest ++ ys)).out } :=
  (Decoder.drain_append hys (flatten_drain _).2.1).2 ys

/-- A proper part of a message has no message in front. -/
theorem size_of_part {p xs : List α} (hp : f.IsMessage p) (hxs : xs <+: p)
    (hlt : xs.length < p.length) : f.size xs = none := by
  cases hs : f.size xs with
  | none => rfl
  | some n =>
    obtain ⟨ys, rfl⟩ := hxs
    have hn := f.size_bounds hs
    have hsame := (f.stable ys hs).symm.trans hp
    have := Option.some.inj hsame
    omega

/-- The end of the last message that ends at `x` or before. -/
def lastBoundary : List (List α) → ℕ → ℕ
  | [], _ => 0
  | p :: ps, x => if p.length ≤ x then p.length + lastBoundary ps (x - p.length) else 0

/-- **Where the rest begins**: behind the last message that has ended. -/
theorem length_rest {ps : List (List α)} (hps : ∀ p ∈ ps, f.IsMessage p) {xs : List α}
    (hxs : xs <+: ps.flatten) :
    (f.decoder.drain () xs).rest.length + lastBoundary ps xs.length = xs.length := by
  induction ps generalizing xs with
  | nil =>
    obtain rfl := List.prefix_nil.mp hxs
    simp [lastBoundary]
  | cons p ps ih =>
    have hp := hps p (by simp)
    rw [List.flatten_cons] at hxs
    unfold lastBoundary
    split
    next hle =>
      obtain ⟨ys, rfl⟩ : p <+: xs :=
        List.prefix_of_prefix_length_le (List.prefix_append p ps.flatten) hxs hle
      have hys : ys <+: ps.flatten := (List.prefix_append_right_inj p).mp hxs
      have hrest := ih (fun q hq => hps q (List.mem_cons_of_mem _ hq)) hys
      simp only [drain_cons hp, List.length_append, Nat.add_sub_cancel_left]
      omega
    next hlt =>
      have hpre : xs <+: p :=
        List.prefix_of_prefix_length_le hxs (List.prefix_append p ps.flatten) (by omega)
      rw [drain_of_none (size_of_part hp hpre (by omega))]
      rfl

/-- Where nothing is kept, whole messages have come. -/
theorem of_rest_eq_nil {ps : List (List α)} (hps : ∀ p ∈ ps, f.IsMessage p) {xs : List α}
    (hxs : xs <+: ps.flatten) (hrest : (f.decoder.drain () xs).rest = []) :
    ∃ qs rs, ps = qs ++ rs ∧ xs = qs.flatten := by
  induction ps generalizing xs with
  | nil => exact ⟨[], [], rfl, List.prefix_nil.mp hxs⟩
  | cons p ps ih =>
    have hp := hps p (by simp)
    rw [List.flatten_cons] at hxs
    by_cases hle : p.length ≤ xs.length
    · obtain ⟨ys, rfl⟩ : p <+: xs :=
        List.prefix_of_prefix_length_le (List.prefix_append p ps.flatten) hxs hle
      rw [drain_cons hp] at hrest
      obtain ⟨qs, rs, rfl, rfl⟩ := ih (fun q hq => hps q (List.mem_cons_of_mem _ hq))
        ((List.prefix_append_right_inj p).mp hxs) hrest
      exact ⟨p :: qs, rs, rfl, rfl⟩
    · have hpre : xs <+: p :=
        List.prefix_of_prefix_length_le hxs (List.prefix_append p ps.flatten) (by omega)
      rw [drain_of_none (size_of_part hp hpre (by omega))] at hrest
      exact ⟨[], p :: ps, rfl, hrest⟩

/-- The messages that end at `x` or before. -/
def ended : List (List α) → ℕ → List (List α)
  | [], _ => []
  | p :: ps, x => if p.length ≤ x then p :: ended ps (x - p.length) else []

theorem ended_prefix (ps : List (List α)) (x : ℕ) : ended ps x <+: ps := by
  induction ps generalizing x with
  | nil => exact List.prefix_rfl
  | cons p ps ih =>
    unfold ended
    split
    · exact List.cons_prefix_cons.mpr ⟨rfl, ih _⟩
    · exact List.nil_prefix

theorem ended_all (ps : List (List α)) : ended ps ps.flatten.length = ps := by
  induction ps with
  | nil => rfl
  | cons p ps ih =>
    rw [ended, List.flatten_cons, List.length_append, if_pos (Nat.le_add_right _ _),
      Nat.add_sub_cancel_left, ih]

/-- **What has been cut off**: the messages that have ended. -/
theorem out_eq_ended {ps : List (List α)} (hps : ∀ p ∈ ps, f.IsMessage p) {xs : List α}
    (hxs : xs <+: ps.flatten) : (f.decoder.drain () xs).out = ended ps xs.length := by
  induction ps generalizing xs with
  | nil =>
    obtain rfl := List.prefix_nil.mp hxs
    rw [Decoder.drain_nil]
    rfl
  | cons p ps ih =>
    have hp := hps p (by simp)
    rw [List.flatten_cons] at hxs
    unfold ended
    split
    next hle =>
      obtain ⟨ys, rfl⟩ : p <+: xs :=
        List.prefix_of_prefix_length_le (List.prefix_append p ps.flatten) hxs hle
      have hys : ys <+: ps.flatten := (List.prefix_append_right_inj p).mp hxs
      rw [drain_cons hp, ih (fun q hq => hps q (List.mem_cons_of_mem _ hq)) hys,
        List.length_append, Nat.add_sub_cancel_left]
    next hlt =>
      have hpre : xs <+: p :=
        List.prefix_of_prefix_length_le hxs (List.prefix_append p ps.flatten) (by omega)
      rw [drain_of_none (size_of_part hp hpre (by omega))]

theorem drain_flatten {ps : List (List α)} (hps : ∀ p ∈ ps, f.IsMessage p) :
    f.decoder.drain () ps.flatten = ⟨(), ps, [], []⟩ := by
  induction ps with
  | nil => exact Decoder.drain_nil ()
  | cons p ps ih =>
    rw [List.flatten_cons, drain_cons (hps p (by simp)),
      ih fun q hq => hps q (List.mem_cons_of_mem _ hq)]

end Framing

end Incremental
