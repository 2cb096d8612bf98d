import Mathlib.Tactic

/-!
# Lines of text

A text is cut at its first CR LF. A line that has no CR in it comes back whole, whatever
follows. Numbers are written in decimal digits and read back.

## Main definitions

* `Lines.cut` — the first line and what follows.
* `Lines.number` — the number that a list of decimal digits denotes.
-/

namespace Lines

/-- The text up to the first CR LF, and the text behind it. -/
def cut : List UInt8 → Option (List UInt8 × List UInt8)
  | 13 :: 10 :: rest => some ([], rest)
  | b :: rest => (cut rest).map fun r => (b :: r.1, r.2)
  | [] => none

theorem cut_append {line : List UInt8} (hline : 13 ∉ line) (rest : List UInt8) :
    cut (line ++ 13 :: 10 :: rest) = some (line, rest) := by
  induction line with
  | nil => rfl
  | cons b line ih =>
    obtain ⟨hb, hline⟩ := not_or.mp (List.mem_cons.not.mp hline)
    rw [List.cons_append, cut, ih hline]
    · rfl
    · rintro rest' rfl
      exact absurd rfl hb

/-! ### Numbers -/

/-- One more digit, unless the byte is none. -/
def digit (n : ℕ) (b : UInt8) : Option ℕ :=
  if 48 ≤ b ∧ b ≤ 57 then some (n * 10 + (b.toNat - 48)) else none

/-- The number that a list of digits denotes; an empty list denotes none. -/
def number : List UInt8 → Option ℕ
  | [] => none
  | b :: bs => (b :: bs).foldlM digit 0

/-- Decimal digits, most significant first. -/
def decimal (n : ℕ) : List UInt8 := (Nat.toDigits 10 n).map fun c => UInt8.ofNat c.toNat

theorem digit_digitChar {d : ℕ} (hd : d < 10) (n : ℕ) :
    digit n (UInt8.ofNat (Nat.digitChar d).toNat) = some (n * 10 + d) := by
  unfold digit
  interval_cases d <;> rfl

theorem foldlM_decimal (n : ℕ) : (decimal n).foldlM digit 0 = some n := by
  induction n using Nat.strongRecOn with
  | ind n ih =>
    rw [decimal, Nat.toDigits_eq_if (by decide)]
    split
    · rename_i hlt
      rw [List.map_singleton, List.foldlM_cons, digit_digitChar hlt]
      simp
    · rename_i hge
      rw [List.map_append, List.map_singleton, List.foldlM_append, ← decimal,
        ih (n / 10) (by omega), Option.bind_eq_bind, Option.bind_some, List.foldlM_cons,
        digit_digitChar (Nat.mod_lt n (by decide))]
      simp only [List.foldlM_nil, Option.bind_eq_bind, Option.bind_some, Option.pure_def,
        Option.some.injEq]
      omega

theorem decimal_ne_nil (n : ℕ) : decimal n ≠ [] := by
  intro hnil
  have hvalue := foldlM_decimal n
  rw [hnil] at hvalue
  obtain rfl : n = 0 := by simpa using hvalue.symm
  exact absurd hnil (by decide)

/-- **A number is read back from its digits.** -/
theorem number_decimal (n : ℕ) : number (decimal n) = some n := by
  unfold number
  split
  · rename_i hnil
    exact absurd hnil (decimal_ne_nil n)
  · rename_i hcons
    rw [← hcons, foldlM_decimal]

theorem digit_isSome {n : ℕ} {b : UInt8} (h : (digit n b).isSome) : 48 ≤ b ∧ b ≤ 57 := by
  unfold digit at h
  split at h
  · assumption
  · cases h

/-- What is read as a number has digits only. -/
theorem mem_of_foldlM {bs : List UInt8} {m n : ℕ} (h : bs.foldlM digit m = some n) {b : UInt8}
    (hb : b ∈ bs) : 48 ≤ b ∧ b ≤ 57 := by
  induction bs generalizing m with
  | nil => exact absurd hb List.not_mem_nil
  | cons c bs ih =>
    rw [List.foldlM_cons] at h
    obtain ⟨m', hc, hrest⟩ := Option.bind_eq_some_iff.mp h
    rcases List.mem_cons.mp hb with rfl | hb
    · exact digit_isSome (by rw [hc]; rfl)
    · exact ih hrest hb

theorem number_eq_none {bs : List UInt8} {b : UInt8} (hb : b ∈ bs)
    (hdigit : ¬ (48 ≤ b ∧ b ≤ 57)) : number bs = none := by
  cases hnumber : number bs with
  | none => rfl
  | some n =>
    cases bs with
    | nil => exact absurd hb List.not_mem_nil
    | cons c bs => exact absurd (mem_of_foldlM hnumber hb) hdigit

end Lines
