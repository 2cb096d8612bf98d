import XNetty.Lib.Utf8
import XNetty.WebSocket.Frame

/-!
# The UTF-8 check

`isValidUtf8` scans one sequence after the other by the table of well-formed UTF-8, but for the
two-byte sequences, where it allows every lead byte of the class: `C0` and `C1` too, whose
sequences are overlong forms of ASCII characters.

## Main definitions

* `isValidUtf8At` — the loop of the source, with reads that fail past the length.
* `OverlongPairs` — strings that are valid but for overlong pairs.
* `isValidUtf8_wellFormed_iff` — the strings that the check is right about.
-/

namespace XNetty

open Utf8

/-- `isValidUtf8(s, len)` from index `i` on, in the order of the source's reads. -/
def isValidUtf8At (s : Bytes) (i : ℕ) : Option Bool :=
  if h : i < s.length then do
    let s0 ← s[i]?
    if s0 &&& 0x80 = 0 then isValidUtf8At s (i + 1)
    else if s0 &&& 0xe0 = 0xc0 then
      if i + 1 ≥ s.length then return false
      let s1 ← s[i + 1]?
      if s1 &&& 0xc0 ≠ 0x80 then return false
      isValidUtf8At s (i + 2)
    else if s0 &&& 0xf0 = 0xe0 then
      if i + 2 ≥ s.length then return false
      let s1 ← s[i + 1]?
      if s1 &&& 0xc0 ≠ 0x80 then return false
      let s2 ← s[i + 2]?
      if s2 &&& 0xc0 ≠ 0x80 then return false
      if s0 = 0xe0 ∧ s1 &&& 0xe0 = 0x80 then return false
      if s0 = 0xed ∧ s1 &&& 0xe0 = 0xa0 then return false
      isValidUtf8At s (i + 3)
    else if s0 &&& 0xf8 = 0xf0 then
      if i + 3 ≥ s.length then return false
      let s1 ← s[i + 1]?
      if s1 &&& 0xc0 ≠ 0x80 then return false
      let s2 ← s[i + 2]?
      if s2 &&& 0xc0 ≠ 0x80 then return false
      let s3 ← s[i + 3]?
      if s3 &&& 0xc0 ≠ 0x80 then return false
      if s0 = 0xf0 ∧ s1 &&& 0xf0 = 0x80 then return false
      if s0 > 0xf4 ∨ (s0 = 0xf4 ∧ s1 > 0x8f) then return false
      isValidUtf8At s (i + 4)
    else return false
  else return true
termination_by s.length - i

/-- The overlong form of an ASCII character. -/
def IsOverlongPair : Bytes → Prop
  | [a, b] => (a = 0xC0 ∨ a = 0xC1) ∧ IsTail b
  | _ => False

/-- Sequences of characters and overlong pairs, with at least one of the pairs. -/
def OverlongPairs (s : Bytes) : Prop :=
  ∃ units : List Bytes, s = units.flatten ∧ (∀ u ∈ units, IsSequence u ∨ IsOverlongPair u) ∧
    ∃ u ∈ units, IsOverlongPair u

/-! ### Bytes -/

/-- What the masks of the source test. -/
theorem mask_iff (x : UInt8) :
    (x &&& 0x80 = 0 ↔ x.toNat ≤ 0x7F) ∧
    (x &&& 0xe0 = 0xc0 ↔ 0xC0 ≤ x.toNat ∧ x.toNat ≤ 0xDF) ∧
    (x &&& 0xf0 = 0xe0 ↔ 0xE0 ≤ x.toNat ∧ x.toNat ≤ 0xEF) ∧
    (x &&& 0xf8 = 0xf0 ↔ 0xF0 ≤ x.toNat ∧ x.toNat ≤ 0xF7) ∧
    (x &&& 0xc0 = 0x80 ↔ 0x80 ≤ x.toNat ∧ x.toNat ≤ 0xBF) ∧
    (x &&& 0xe0 = 0x80 ↔ 0x80 ≤ x.toNat ∧ x.toNat ≤ 0x9F) ∧
    (x &&& 0xe0 = 0xa0 ↔ 0xA0 ≤ x.toNat ∧ x.toNat ≤ 0xBF) ∧
    (x &&& 0xf0 = 0x80 ↔ 0x80 ≤ x.toNat ∧ x.toNat ≤ 0x8F) := by
  have hall : ∀ n : Fin 256,
      (UInt8.ofNat n.val &&& 0x80 = 0 ↔ n.val ≤ 0x7F) ∧
      (UInt8.ofNat n.val &&& 0xe0 = 0xc0 ↔ 0xC0 ≤ n.val ∧ n.val ≤ 0xDF) ∧
      (UInt8.ofNat n.val &&& 0xf0 = 0xe0 ↔ 0xE0 ≤ n.val ∧ n.val ≤ 0xEF) ∧
      (UInt8.ofNat n.val &&& 0xf8 = 0xf0 ↔ 0xF0 ≤ n.val ∧ n.val ≤ 0xF7) ∧
      (UInt8.ofNat n.val &&& 0xc0 = 0x80 ↔ 0x80 ≤ n.val ∧ n.val ≤ 0xBF) ∧
      (UInt8.ofNat n.val &&& 0xe0 = 0x80 ↔ 0x80 ≤ n.val ∧ n.val ≤ 0x9F) ∧
      (UInt8.ofNat n.val &&& 0xe0 = 0xa0 ↔ 0xA0 ≤ n.val ∧ n.val ≤ 0xBF) ∧
      (UInt8.ofNat n.val &&& 0xf0 = 0x80 ↔ 0x80 ≤ n.val ∧ n.val ≤ 0x8F) := by
    decide +kernel
  simpa using hall ⟨x.toNat, x.toNat_lt⟩

/-! ### The loop of the source -/

/-- **The loop** reads no byte past the length, and decides what the scan of the list does. -/
theorem isValidUtf8At_eq (s : Bytes) (i : ℕ) :
    isValidUtf8At s i = some (isValidUtf8 (s.drop i)) := by
  induction hn : s.length - i using Nat.strongRecOn generalizing i with
  | _ n ih =>
    cases hdrop : s.drop i with
    | nil =>
      have hend : ¬ i < s.length := by simpa using hdrop
      rw [isValidUtf8At, dif_neg hend]
      rfl
    | cons s0 rest =>
      have hlength : s.length - i = rest.length + 1 := by
        rw [← List.length_drop, hdrop, List.length_cons]
      have hread : ∀ k, s[i + k]? = (s0 :: rest)[k]? := fun k => by
        rw [← hdrop, List.getElem?_drop]
      have hnext : ∀ k, 0 < k →
          isValidUtf8At s (i + k) = some (isValidUtf8 ((s0 :: rest).drop k)) := by
        intro k hk
        rw [ih (s.length - (i + k)) (by omega) (i + k) rfl, ← hdrop, List.drop_drop]
      have hread0 : s[i]? = some s0 := hread 0
      rw [isValidUtf8At, dif_pos (by omega), hread0]
      simp only [Option.bind_eq_bind, Option.bind_some, hread, hnext 1 (by omega),
        hnext 2 (by omega), hnext 3 (by omega), hnext 4 (by omega)]
      -- the scan of the list, opened once
      conv_rhs => rw [isValidUtf8.eq_def]
      simp only []
      by_cases hone : s0 &&& 0x80 = 0
      · simp [hone]
      by_cases htwo : s0 &&& 0xe0 = 0xc0
      · rcases rest with _ | ⟨s1, rest⟩ <;> simp only [List.length_nil, List.length_cons] at hlength
        · simp [hone, htwo, show s.length ≤ i + 1 by omega]
        · by_cases h1 : s1 &&& 0xc0 = 0x80 <;>
            simp [hone, htwo, h1, show ¬ s.length ≤ i + 1 by omega]
      by_cases hthree : s0 &&& 0xf0 = 0xe0
      · rcases rest with _ | ⟨s1, _ | ⟨s2, rest⟩⟩ <;>
          simp only [List.length_nil, List.length_cons] at hlength
        · simp [hone, htwo, hthree, show s.length ≤ i + 2 by omega]
        · simp [hone, htwo, hthree, show s.length ≤ i + 2 by omega]
        · have hend : ¬ i + 2 ≥ s.length := by omega
          by_cases h1 : s1 &&& 0xc0 = 0x80 <;> by_cases h2 : s2 &&& 0xc0 = 0x80 <;>
            simp only [hone, htwo, hthree, hend, h1, h2, if_false, if_true, ne_eq, not_true,
              not_false_iff, or_true, or_false, List.getElem?_cons_zero, List.getElem?_cons_succ,
              Option.bind_some, List.drop_succ_cons, List.drop_zero, apply_ite some] <;> rfl
      by_cases hfour : s0 &&& 0xf8 = 0xf0
      · rcases rest with _ | ⟨s1, _ | ⟨s2, _ | ⟨s3, rest⟩⟩⟩ <;>
          simp only [List.length_nil, List.length_cons] at hlength
        · simp [hone, htwo, hthree, hfour, show s.length ≤ i + 3 by omega]
        · simp [hone, htwo, hthree, hfour, show s.length ≤ i + 3 by omega]
        · simp [hone, htwo, hthree, hfour, show s.length ≤ i + 3 by omega]
        · have hend : ¬ i + 3 ≥ s.length := by omega
          by_cases h1 : s1 &&& 0xc0 = 0x80 <;> by_cases h2 : s2 &&& 0xc0 = 0x80 <;>
            by_cases h3 : s3 &&& 0xc0 = 0x80 <;>
            simp only [hone, htwo, hthree, hfour, hend, h1, h2, h3, if_false, if_true, ne_eq,
              not_true, not_false_iff, or_true, or_false, List.getElem?_cons_zero,
              List.getElem?_cons_succ, Option.bind_some, List.drop_succ_cons, List.drop_zero,
              apply_ite some] <;> rfl
      · simp [hone, htwo, hthree, hfour]

/-! ### What the scan accepts -/

theorem isUnit_one (a : UInt8) : IsSequence [a] ∨ IsOverlongPair [a] ↔ a &&& 0x80 = 0 := by
  obtain ⟨hone, -⟩ := mask_iff a
  simp [IsSequence, IsOverlongPair, hone]

theorem eq_iff_toNat (x : UInt8) {n : ℕ} (hn : n < 256) : x = UInt8.ofNat n ↔ x.toNat = n := by
  rw [eq_comm, ofNat_eq_iff hn, eq_comm]

/-- Two bytes pass with every lead byte of the class. -/
theorem isUnit_two (a b : UInt8) :
    IsSequence [a, b] ∨ IsOverlongPair [a, b] ↔ a &&& 0xe0 = 0xc0 ∧ b &&& 0xc0 = 0x80 := by
  obtain ⟨-, hlead, -⟩ := mask_iff a
  obtain ⟨-, -, -, -, htail, -⟩ := mask_iff b
  have h0 : a = 0xC0 ↔ a.toNat = 0xC0 := eq_iff_toNat a (by decide)
  have h1 : a = 0xC1 ↔ a.toNat = 0xC1 := eq_iff_toNat a (by decide)
  simp only [IsSequence, IsOverlongPair, IsTail, hlead, htail, h0, h1]
  omega

theorem isUnit_three (a b c : UInt8) :
    IsSequence [a, b, c] ∨ IsOverlongPair [a, b, c] ↔
      a &&& 0xf0 = 0xe0 ∧ b &&& 0xc0 = 0x80 ∧ c &&& 0xc0 = 0x80 ∧
        ¬ (a = 0xe0 ∧ b &&& 0xe0 = 0x80) ∧ ¬ (a = 0xed ∧ b &&& 0xe0 = 0xa0) := by
  obtain ⟨-, -, hlead, -⟩ := mask_iff a
  obtain ⟨-, -, -, -, htail, hlow, hhigh, -⟩ := mask_iff b
  obtain ⟨-, -, -, -, hthird, -⟩ := mask_iff c
  have h0 : a = 0xe0 ↔ a.toNat = 0xE0 := eq_iff_toNat a (by decide)
  have hd : a = 0xed ↔ a.toNat = 0xED := eq_iff_toNat a (by decide)
  have hpair : ¬ IsOverlongPair [a, b, c] := id
  simp only [IsSequence, IsSecondOfThree, hpair, IsTail, hlead, htail, hlow, hhigh, hthird, h0, hd]
  grind

theorem isUnit_four (a b c d : UInt8) :
    IsSequence [a, b, c, d] ∨ IsOverlongPair [a, b, c, d] ↔
      a &&& 0xf8 = 0xf0 ∧ b &&& 0xc0 = 0x80 ∧ c &&& 0xc0 = 0x80 ∧ d &&& 0xc0 = 0x80 ∧
        ¬ (a = 0xf0 ∧ b &&& 0xf0 = 0x80) ∧ ¬ (a > 0xf4 ∨ (a = 0xf4 ∧ b > 0x8f)) := by
  obtain ⟨-, -, -, hlead, -⟩ := mask_iff a
  obtain ⟨-, -, -, -, htail, -, -, hlow⟩ := mask_iff b
  obtain ⟨-, -, -, -, hthird, -⟩ := mask_iff c
  obtain ⟨-, -, -, -, hfourth, -⟩ := mask_iff d
  have h0 : a = 0xf0 ↔ a.toNat = 0xF0 := eq_iff_toNat a (by decide)
  have h4 : a = 0xf4 ↔ a.toNat = 0xF4 := eq_iff_toNat a (by decide)
  have ha : a > 0xf4 ↔ 0xF4 < a.toNat := UInt8.lt_iff_toNat_lt
  have hb : b > 0x8f ↔ 0x8F < b.toNat := UInt8.lt_iff_toNat_lt
  have hpair : ¬ IsOverlongPair [a, b, c, d] := id
  simp only [IsSequence, IsSecondOfFour, hpair, IsTail, hlead, htail, hlow, hthird, hfourth, h0,
    h4, ha, hb]
  grind

/-- The scan steps over a sequence, and over an overlong pair. -/
theorem isValidUtf8_append {u : Bytes} (hu : IsSequence u ∨ IsOverlongPair u) (rest : Bytes) :
    isValidUtf8 (u ++ rest) = isValidUtf8 rest := by
  match u with
  | [a] =>
    have hone := (isUnit_one a).mp hu
    rw [List.singleton_append, isValidUtf8.eq_def]
    simp [hone]
  | [a, b] =>
    obtain ⟨hlead, h1⟩ := (isUnit_two a b).mp hu
    have hone : ¬ a &&& 0x80 = 0 := by grind [mask_iff a]
    simp [isValidUtf8, hone, hlead, h1]
  | [a, b, c] =>
    obtain ⟨hlead, h1, h2, h3, h4⟩ := (isUnit_three a b c).mp hu
    have hone : ¬ a &&& 0x80 = 0 := by grind [mask_iff a]
    have htwo : ¬ a &&& 0xe0 = 0xc0 := by grind [mask_iff a]
    simp [isValidUtf8, hone, htwo, hlead, h1, h2, h3, h4]
  | [a, b, c, d] =>
    obtain ⟨hlead, h1, h2, h3, h4, h5⟩ := (isUnit_four a b c d).mp hu
    have hone : ¬ a &&& 0x80 = 0 := by grind [mask_iff a]
    have htwo : ¬ a &&& 0xe0 = 0xc0 := by grind [mask_iff a]
    have hthree : ¬ a &&& 0xf0 = 0xe0 := by grind [mask_iff a]
    simp [isValidUtf8, hone, htwo, hthree, hlead, h1, h2, h3, h4, h5]
  | [] | _ :: _ :: _ :: _ :: _ :: _ => simp [IsSequence, IsOverlongPair] at hu

/-- The scan accepts the concatenations of sequences and overlong pairs. -/
theorem isValidUtf8_iff (s : Bytes) :
    isValidUtf8 s = true ↔
      ∃ units : List Bytes, s = units.flatten ∧ ∀ u ∈ units, IsSequence u ∨ IsOverlongPair u := by
  constructor
  · have hcons : ∀ u rest : Bytes, IsSequence u ∨ IsOverlongPair u →
        (∃ units : List Bytes, rest = units.flatten ∧
          ∀ u ∈ units, IsSequence u ∨ IsOverlongPair u) →
        ∃ units : List Bytes, u ++ rest = units.flatten ∧
          ∀ u ∈ units, IsSequence u ∨ IsOverlongPair u := by
      rintro u rest hu ⟨units, rfl, hunits⟩
      exact ⟨u :: units, rfl, List.forall_mem_cons.mpr ⟨hu, hunits⟩⟩
    intro h
    fun_induction isValidUtf8 s with
    | case1 => exact ⟨[], rfl, by simp⟩
    | case2 a rest hone ih => exact hcons [a] rest ((isUnit_one a).mpr hone) (ih h)
    | case4 a _ htwo b rest h1 ih =>
      exact hcons [a, b] rest ((isUnit_two a b).mpr ⟨htwo, not_not.mp h1⟩) (ih h)
    | case9 a _ _ hthree b c rest htails h3 h4 ih =>
      obtain ⟨h1, h2⟩ := not_or.mp htails
      exact hcons [a, b, c] rest
        ((isUnit_three a b c).mpr ⟨hthree, not_not.mp h1, not_not.mp h2, h3, h4⟩) (ih h)
    | case14 a _ _ _ hfour b c d rest htails h4 h5 ih =>
      obtain ⟨h1, h2, h3⟩ := by simpa only [not_or, ne_eq, not_not] using htails
      exact hcons [a, b, c, d] rest ((isUnit_four a b c d).mpr ⟨hfour, h1, h2, h3, h4, h5⟩) (ih h)
    | _ => exact absurd h Bool.false_ne_true
  · rintro ⟨units, rfl, hunits⟩
    induction units with
    | nil => simp [isValidUtf8]
    | cons u units ih =>
      rw [List.flatten_cons, isValidUtf8_append (hunits u (by simp))]
      exact ih fun v hv => hunits v (List.mem_cons_of_mem _ hv)

/-- **Well-formed UTF-8.** The check, which reads nothing past the length, is right exactly about
the strings that are not made of sequences and overlong pairs with a pair among them. -/
theorem isValidUtf8_wellFormed_iff (s : Bytes) :
    (∃ b, isValidUtf8At s 0 = some b ∧ (b = true ↔ WellFormed s)) ↔ ¬ OverlongPairs s := by
  rw [isValidUtf8At_eq, List.drop_zero]
  simp only [Option.some.injEq, exists_eq_left', isValidUtf8_iff, wellFormed_iff]
  constructor
  · rintro hiff ⟨units, rfl, hunits, u, hu, hpair⟩
    -- the first byte of the pair is in no well-formed string
    have hwell : WellFormed units.flatten := (wellFormed_iff _).mpr (hiff.mp ⟨units, rfl, hunits⟩)
    obtain ⟨a, b, rfl⟩ : ∃ a b, u = [a, b] := by
      match u with
      | [a, b] => exact ⟨a, b, rfl⟩
      | [] | [_] | _ :: _ :: _ :: _ => exact hpair.elim
    have hbyte := hwell.ne_overlong (List.mem_flatten.mpr ⟨_, hu, List.mem_cons_self⟩)
    rcases hpair with ⟨rfl | rfl, -⟩
    · exact hbyte.1 rfl
    · exact hbyte.2 rfl
  · intro hnone
    constructor
    · rintro ⟨units, rfl, hunits⟩
      refine ⟨units, rfl, fun u hu => (hunits u hu).resolve_right fun hpair => ?_⟩
      exact hnone ⟨units, rfl, hunits, u, hu, hpair⟩
    · rintro ⟨units, rfl, hunits⟩
      exact ⟨units, rfl, fun u hu => .inl (hunits u hu)⟩

/-- The overlong form of U+0000 passes. -/
theorem not_isValidUtf8_wellFormed_overlong :
    ¬ ∃ b, isValidUtf8At [0xC0, 0x80] 0 = some b ∧ (b = true ↔ WellFormed [0xC0, 0x80]) := by
  rintro ⟨b, hb, hiff⟩
  have haccepted : isValidUtf8 [0xC0, 0x80] = true := by decide +kernel
  rw [isValidUtf8At_eq, List.drop_zero, haccepted, Option.some.injEq] at hb
  have hbyte := (hiff.mp hb.symm).ne_overlong List.mem_cons_self
  exact hbyte.1 rfl

end XNetty
