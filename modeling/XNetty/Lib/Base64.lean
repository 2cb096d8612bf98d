import Mathlib.Tactic

/-!
# Base 64

Groups of three octets, written as four characters of six bits each. The last group may be short,
and its text is padded.

## Main definitions

* `Base64.alphabet`, `Base64.value` — the characters and their values.
* `Base64.decode` — the decoder, which takes a padding character only where one belongs.
* `Base64.quantum_triple`, `Base64.quantum_pair`, `Base64.quantum_single` — it undoes any encoder.
-/

namespace Base64

/-- `A` to `Z`, `a` to `z`, `0` to `9`, `+` and `/`. -/
def alphabet : List UInt8 :=
  (List.range 26).map (fun i => UInt8.ofNat (65 + i)) ++
    (List.range 26).map (fun i => UInt8.ofNat (97 + i)) ++
    (List.range 10).map (fun i => UInt8.ofNat (48 + i)) ++ [43, 47]

/-- `=` -/
def pad : UInt8 := 61

/-- The value of a character is its place in the alphabet. -/
def value (c : UInt8) : Option ℕ := alphabet.idxOf? c

/-- The three octets of four characters. -/
def octets (x y z w : ℕ) : List UInt8 :=
  [UInt8.ofNat (x * 4 + y / 16), UInt8.ofNat (y % 16 * 16 + z / 4), UInt8.ofNat (z % 4 * 64 + w)]

/-- What four characters stand for. The bits that padding leaves over are zero. -/
def quantum (a b c d : UInt8) : Option (List UInt8) := do
  let x ← value a
  let y ← value b
  if c = pad ∧ d = pad then if y % 16 = 0 then some ((octets x y 0 0).take 1) else none
  else
    let z ← value c
    if d = pad then if z % 4 = 0 then some ((octets x y z 0).take 2) else none
    else (value d).map (octets x y z)

/-- The decoder: only the last four characters are padded. -/
def decode : List UInt8 → Option (List UInt8)
  | [] => some []
  | a :: b :: c :: d :: rest =>
    if d = pad ∧ rest ≠ [] then none
    else (quantum a b c d).bind fun bs => (decode rest).map (bs ++ ·)
  | _ => none

theorem value_pad : value pad = none := by decide +kernel

theorem ne_pad_of_value {c : UInt8} {n : ℕ} (h : value c = some n) : c ≠ pad := by
  rintro rfl
  rw [value_pad] at h
  cases h

theorem mem_alphabet_of_value {c : UInt8} {n : ℕ} (h : value c = some n) : c ∈ alphabet := by
  by_contra hc
  rw [value, List.idxOf?_eq_none_iff.mpr hc] at h
  cases h

/-! ### Three octets -/

/-- The first six bits of a group of octets, and the six behind them. -/
theorem octets_split (x y z : UInt8) :
    octets (x.toNat / 4) (x.toNat % 4 * 16 + y.toNat / 16) (y.toNat % 16 * 4 + z.toNat / 64)
      (z.toNat % 64) = [x, y, z] := by
  have hx := x.toNat_lt
  have hy := y.toNat_lt
  have hz := z.toNat_lt
  have hfirst : x.toNat / 4 * 4 + (x.toNat % 4 * 16 + y.toNat / 16) / 16 = x.toNat := by omega
  have hsecond : (x.toNat % 4 * 16 + y.toNat / 16) % 16 * 16 +
      (y.toNat % 16 * 4 + z.toNat / 64) / 4 = y.toNat := by omega
  have hthird : (y.toNat % 16 * 4 + z.toNat / 64) % 4 * 64 + z.toNat % 64 = z.toNat := by omega
  simp only [octets, hfirst, hsecond, hthird, UInt8.ofNat_toNat]

variable {a b c d : UInt8} {x y z : UInt8}

theorem quantum_triple (ha : value a = some (x.toNat / 4))
    (hb : value b = some (x.toNat % 4 * 16 + y.toNat / 16))
    (hc : value c = some (y.toNat % 16 * 4 + z.toNat / 64)) (hd : value d = some (z.toNat % 64)) :
    quantum a b c d = some [x, y, z] := by
  have hpad := ne_pad_of_value hd
  rw [← octets_split x y z]
  simp [quantum, ha, hb, hc, hd, hpad]

theorem quantum_pair (ha : value a = some (x.toNat / 4))
    (hb : value b = some (x.toNat % 4 * 16 + y.toNat / 16))
    (hc : value c = some (y.toNat % 16 * 4)) : quantum a b c pad = some [x, y] := by
  have hsplit := octets_split x y 0
  have hpad := ne_pad_of_value hc
  simp only [UInt8.toNat_zero, Nat.zero_div, add_zero, Nat.zero_mod] at hsplit
  have hzero : y.toNat % 16 * 4 % 4 = 0 := by omega
  simp [quantum, ha, hb, hc, hpad, hzero, hsplit]

theorem quantum_single (ha : value a = some (x.toNat / 4))
    (hb : value b = some (x.toNat % 4 * 16)) : quantum a b pad pad = some [x] := by
  have hsplit := octets_split x 0 0
  simp only [UInt8.toNat_zero, Nat.zero_div, add_zero, Nat.zero_mod, zero_mul] at hsplit
  have hzero : x.toNat % 4 * 16 % 16 = 0 := by omega
  simp [quantum, ha, hb, hzero, hsplit]

end Base64
