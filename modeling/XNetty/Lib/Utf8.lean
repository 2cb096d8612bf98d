import Mathlib.Tactic

/-!
# Well-formed UTF-8

Characters are the Unicode scalar values. Their encodings are the byte sequences of a table: a
lead byte, which allows a range for the byte behind it, and tails.

## Main definitions

* `Utf8.WellFormed` — the encoding of a sequence of characters.
* `Utf8.IsSequence` — the table of the sequences of one character.
* `Utf8.encodes_iff` — the table is right.
-/

namespace Utf8

/-- The byte sequence encodes a character. -/
def Encodes (bs : List UInt8) : Prop := ∃ c : Char, String.utf8EncodeChar c = bs

/-- The bytes encode a sequence of characters. -/
def WellFormed (bs : List UInt8) : Prop := ∃ cs : List Char, bs = cs.flatMap String.utf8EncodeChar

/-- `80` to `BF` -/
def IsTail (x : UInt8) : Prop := 0x80 ≤ x.toNat ∧ x.toNat ≤ 0xBF

/-- The second byte of three that a lead byte allows. -/
def IsSecondOfThree (lead second : UInt8) : Prop :=
  0xE0 ≤ lead.toNat ∧ lead.toNat ≤ 0xEF ∧ IsTail second ∧
    (lead.toNat = 0xE0 → 0xA0 ≤ second.toNat) ∧ (lead.toNat = 0xED → second.toNat ≤ 0x9F)

/-- The second byte of four that a lead byte allows. -/
def IsSecondOfFour (lead second : UInt8) : Prop :=
  0xF0 ≤ lead.toNat ∧ lead.toNat ≤ 0xF4 ∧ IsTail second ∧
    (lead.toNat = 0xF0 → 0x90 ≤ second.toNat) ∧ (lead.toNat = 0xF4 → second.toNat ≤ 0x8F)

/-- The byte sequences of one character. -/
def IsSequence : List UInt8 → Prop
  | [a] => a.toNat ≤ 0x7F
  | [a, b] => 0xC2 ≤ a.toNat ∧ a.toNat ≤ 0xDF ∧ IsTail b
  | [a, b, c] => IsSecondOfThree a b ∧ IsTail c
  | [a, b, c, d] => IsSecondOfFour a b ∧ IsTail c ∧ IsTail d
  | _ => False

/-! ### Scalar values -/

/-- A number that is a character's. -/
def IsScalar (v : ℕ) : Prop := v < 0xD800 ∨ 0xDFFF < v ∧ v < 0x110000

/-- The encoding of a number. -/
def encode (v : ℕ) : List UInt8 :=
  if v ≤ 0x7F then [UInt8.ofNat v]
  else if v ≤ 0x7FF then [UInt8.ofNat (v / 64 % 0x20 + 0xC0), UInt8.ofNat (v % 0x40 + 0x80)]
  else if v ≤ 0xFFFF then
    [UInt8.ofNat (v / 4096 % 0x10 + 0xE0), UInt8.ofNat (v / 64 % 0x40 + 0x80),
      UInt8.ofNat (v % 0x40 + 0x80)]
  else
    [UInt8.ofNat (v / 262144 % 0x08 + 0xF0), UInt8.ofNat (v / 4096 % 0x40 + 0x80),
      UInt8.ofNat (v / 64 % 0x40 + 0x80), UInt8.ofNat (v % 0x40 + 0x80)]

theorem utf8EncodeChar_eq (c : Char) : String.utf8EncodeChar c = encode c.toNat := rfl

theorem encodes_iff_scalar (bs : List UInt8) : Encodes bs ↔ ∃ v, IsScalar v ∧ encode v = bs := by
  constructor
  · rintro ⟨c, rfl⟩
    exact ⟨c.toNat, c.valid, (utf8EncodeChar_eq c).symm⟩
  · rintro ⟨v, hv, rfl⟩
    exact ⟨Char.ofNatAux v hv, utf8EncodeChar_eq _⟩

theorem ofNat_eq_iff {n : ℕ} (hn : n < 256) (x : UInt8) : UInt8.ofNat n = x ↔ n = x.toNat := by
  rw [← UInt8.toNat_inj, UInt8.toNat_ofNat']
  omega

/-! ### The table -/

theorem encodes_one (a : UInt8) : Encodes [a] ↔ IsSequence [a] := by
  rw [encodes_iff_scalar]
  constructor
  · rintro ⟨v, -, hv⟩
    unfold encode at hv
    split_ifs at hv with hone <;> simp only [List.cons.injEq, reduceCtorEq, and_false] at hv
    rw [and_true, ofNat_eq_iff (by omega)] at hv
    simpa [IsSequence, ← hv] using hone
  · intro h
    have h : a.toNat ≤ 0x7F := h
    refine ⟨a.toNat, .inl (by omega), ?_⟩
    simp [encode, h]

theorem encodes_two (a b : UInt8) : Encodes [a, b] ↔ IsSequence [a, b] := by
  rw [encodes_iff_scalar]
  simp only [IsSequence, IsTail]
  constructor
  · rintro ⟨v, -, hv⟩
    unfold encode at hv
    split_ifs at hv with hone htwo <;>
      simp only [List.cons.injEq, reduceCtorEq, and_false] at hv
    rw [and_true, ofNat_eq_iff (by omega), ofNat_eq_iff (by omega)] at hv
    omega
  · intro h
    refine ⟨(a.toNat - 0xC0) * 64 + (b.toNat - 0x80), .inl (by omega), ?_⟩
    rw [encode, if_neg (by omega), if_pos (by omega)]
    simp only [List.cons.injEq, and_true]
    rw [ofNat_eq_iff (by omega), ofNat_eq_iff (by omega)]
    omega

theorem encodes_three (a b c : UInt8) : Encodes [a, b, c] ↔ IsSequence [a, b, c] := by
  rw [encodes_iff_scalar]
  simp only [IsSequence, IsSecondOfThree, IsTail]
  constructor
  · rintro ⟨v, hscalar, hv⟩
    unfold encode at hv
    split_ifs at hv with hone htwo hthree <;>
      simp only [List.cons.injEq, reduceCtorEq, and_false] at hv
    rw [and_true, ofNat_eq_iff (by omega), ofNat_eq_iff (by omega), ofNat_eq_iff (by omega)] at hv
    unfold IsScalar at hscalar
    omega
  · intro h
    refine ⟨(a.toNat - 0xE0) * 4096 + (b.toNat - 0x80) * 64 + (c.toNat - 0x80), ?_, ?_⟩
    · unfold IsScalar
      omega
    · rw [encode, if_neg (by omega), if_neg (by omega), if_pos (by omega)]
      simp only [List.cons.injEq, and_true]
      rw [ofNat_eq_iff (by omega), ofNat_eq_iff (by omega), ofNat_eq_iff (by omega)]
      omega

theorem encodes_four (a b c d : UInt8) : Encodes [a, b, c, d] ↔ IsSequence [a, b, c, d] := by
  rw [encodes_iff_scalar]
  simp only [IsSequence, IsSecondOfFour, IsTail]
  constructor
  · rintro ⟨v, hscalar, hv⟩
    unfold encode at hv
    split_ifs at hv with hone htwo hthree <;>
      simp only [List.cons.injEq, reduceCtorEq, and_false] at hv
    rw [and_true, ofNat_eq_iff (by omega), ofNat_eq_iff (by omega), ofNat_eq_iff (by omega),
      ofNat_eq_iff (by omega)] at hv
    unfold IsScalar at hscalar
    omega
  · intro h
    refine ⟨(a.toNat - 0xF0) * 262144 + (b.toNat - 0x80) * 4096 + (c.toNat - 0x80) * 64 +
      (d.toNat - 0x80), ?_, ?_⟩
    · unfold IsScalar
      omega
    · rw [encode, if_neg (by omega), if_neg (by omega), if_neg (by omega)]
      simp only [List.cons.injEq, and_true]
      rw [ofNat_eq_iff (by omega), ofNat_eq_iff (by omega), ofNat_eq_iff (by omega),
        ofNat_eq_iff (by omega)]
      omega

/-- **The table** lists exactly the encodings of the characters. -/
theorem encodes_iff (bs : List UInt8) : Encodes bs ↔ IsSequence bs := by
  match bs with
  | [a] => exact encodes_one a
  | [a, b] => exact encodes_two a b
  | [a, b, c] => exact encodes_three a b c
  | [a, b, c, d] => exact encodes_four a b c d
  | [] | _ :: _ :: _ :: _ :: _ :: _ =>
    simp only [IsSequence, iff_false]
    rintro ⟨c, hc⟩
    have hlength := congrArg List.length hc
    have hsize := c.utf8Size_le_four
    have hpos := c.utf8Size_pos
    simp only [String.length_utf8EncodeChar, List.length_cons, List.length_nil] at hlength
    omega

theorem wellFormed_iff (bs : List UInt8) :
    WellFormed bs ↔
      ∃ units : List (List UInt8), bs = units.flatten ∧ ∀ u ∈ units, IsSequence u := by
  constructor
  · rintro ⟨cs, rfl⟩
    refine ⟨cs.map String.utf8EncodeChar, List.flatMap_def, fun u hu => ?_⟩
    obtain ⟨c, -, rfl⟩ := List.mem_map.mp hu
    exact (encodes_iff _).mp ⟨c, rfl⟩
  · rintro ⟨units, rfl, hunits⟩
    induction units with
    | nil => exact ⟨[], rfl⟩
    | cons u units ih =>
      obtain ⟨c, hc⟩ := (encodes_iff u).mpr (hunits u (by simp))
      obtain ⟨cs, hcs⟩ := ih fun v hv => hunits v (List.mem_cons_of_mem _ hv)
      exact ⟨c :: cs, by rw [List.flatten_cons, hcs, ← hc, List.flatMap_cons]⟩

/-- The bytes `C0` and `C1` lead no sequence, and are no tails. -/
theorem IsSequence.ne_overlong {bs : List UInt8} (h : IsSequence bs) {x : UInt8} (hx : x ∈ bs) :
    x.toNat ≠ 0xC0 ∧ x.toNat ≠ 0xC1 := by
  match bs with
  | [a] =>
    simp only [IsSequence, List.mem_singleton] at h hx
    grind
  | [a, b] =>
    simp only [IsSequence, IsTail, List.mem_cons, List.not_mem_nil] at h hx
    grind
  | [a, b, c] =>
    simp only [IsSequence, IsSecondOfThree, IsTail, List.mem_cons, List.not_mem_nil] at h hx
    grind
  | [a, b, c, d] =>
    simp only [IsSequence, IsSecondOfFour, IsTail, List.mem_cons, List.not_mem_nil] at h hx
    grind
  | [] | _ :: _ :: _ :: _ :: _ :: _ => exact h.elim

theorem WellFormed.ne_overlong {bs : List UInt8} (h : WellFormed bs) {x : UInt8} (hx : x ∈ bs) :
    x.toNat ≠ 0xC0 ∧ x.toNat ≠ 0xC1 := by
  obtain ⟨units, rfl, hunits⟩ := (wellFormed_iff bs).mp h
  obtain ⟨u, hu, hx⟩ := List.mem_flatten.mp hx
  exact (hunits u hu).ne_overlong hx

end Utf8
