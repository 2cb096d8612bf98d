import Mathlib.Algebra.Order.Floor.Div
import XNetty.Buffer.ByteBuf
import XNetty.Lib.Base64

/-!
# Base64

## Main definitions

* `base64Encode` — three bytes at a time, the last group padded.
* `base64Encode_correct` — the text is the base 64 of the bytes.
-/

namespace XNetty

/-- `kChars`. -/
def base64Chars : Bytes :=
  ascii "ABCDEFGHIJKLMNOPQRSTUVWXYZabcdefghijklmnopqrstuvwxyz0123456789+/"

/-- `kChars[n & 0x3F]`. -/
def base64Char (n : ℕ) : UInt8 := base64Chars.getD (n &&& 0x3F) 0

def base64Encode : Bytes → Bytes
  | [] => []
  | [x] =>
    let v := x.toNat <<< 16
    [base64Char (v >>> 18), base64Char (v >>> 12), 61, 61]
  | [x, y] =>
    let v := (x.toNat <<< 16) ||| (y.toNat <<< 8)
    [base64Char (v >>> 18), base64Char (v >>> 12), base64Char (v >>> 6), 61]
  | x :: y :: z :: rest =>
    let v := (x.toNat <<< 16) ||| (y.toNat <<< 8) ||| z.toNat
    base64Char (v >>> 18) :: base64Char (v >>> 12) :: base64Char (v >>> 6) :: base64Char v ::
      base64Encode rest

@[simp] theorem length_base64Encode (input : Bytes) :
    (base64Encode input).length = 4 * ((input.length + 2) / 3) := by
  fun_induction base64Encode input with
  | case1 => rfl
  | case2 => simp
  | case3 => simp
  | case4 x y z rest v ih =>
    simp only [List.length_cons, ih]
    omega

/-! ### Characters -/

theorem value_base64Chars : ∀ n : Fin 64, Base64.value (base64Chars.getD n 0) = some n := by
  decide +kernel

/-- Six bits select the character of their value. -/
theorem value_base64Char (n : ℕ) : Base64.value (base64Char n) = some (n % 64) := by
  have hmask : n &&& 0x3F = n % 64 := Nat.and_two_pow_sub_one_eq_mod n 6
  rw [base64Char, hmask]
  exact value_base64Chars ⟨n % 64, Nat.mod_lt n (by norm_num)⟩

/-- The 24 bits that three bytes are packed into. -/
theorem packed_eq (x y z : UInt8) : (x.toNat <<< 16) ||| (y.toNat <<< 8) ||| z.toNat =
    x.toNat * 65536 + y.toNat * 256 + z.toNat := by
  have hy := y.toNat_lt
  have hz := z.toNat_lt
  have hyz : y.toNat <<< 8 + z.toNat = y.toNat <<< 8 ||| z.toNat :=
    Nat.shiftLeft_add_eq_or_of_lt hz _
  have hlow : y.toNat <<< 8 + z.toNat < 2 ^ 16 := by
    rw [Nat.shiftLeft_eq]
    omega
  have hxyz := Nat.shiftLeft_add_eq_or_of_lt hlow x.toNat
  rw [Nat.or_assoc, ← hyz, ← hxyz]
  simp only [Nat.shiftLeft_eq]
  omega

/-- The four characters of three bytes. -/
theorem value_packed (x y z : UInt8) :
    let v := (x.toNat <<< 16) ||| (y.toNat <<< 8) ||| z.toNat
    Base64.value (base64Char (v >>> 18)) = some (x.toNat / 4) ∧
      Base64.value (base64Char (v >>> 12)) = some (x.toNat % 4 * 16 + y.toNat / 16) ∧
      Base64.value (base64Char (v >>> 6)) = some (y.toNat % 16 * 4 + z.toNat / 64) ∧
      Base64.value (base64Char v) = some (z.toNat % 64) := by
  intro v
  have hv : v = x.toNat * 65536 + y.toNat * 256 + z.toNat := packed_eq x y z
  have hx := x.toNat_lt
  have hy := y.toNat_lt
  have hz := z.toNat_lt
  simp only [value_base64Char, Nat.shiftRight_eq_div_pow, hv, Option.some.injEq]
  refine ⟨?_, ?_, ?_, ?_⟩ <;> omega

/-- The characters of a group that two bytes are left for, or one. -/
theorem value_packed_pair (x y : UInt8) :
    let v := (x.toNat <<< 16) ||| (y.toNat <<< 8)
    Base64.value (base64Char (v >>> 18)) = some (x.toNat / 4) ∧
      Base64.value (base64Char (v >>> 12)) = some (x.toNat % 4 * 16 + y.toNat / 16) ∧
      Base64.value (base64Char (v >>> 6)) = some (y.toNat % 16 * 4) := by
  obtain ⟨ha, hb, hc, _⟩ := value_packed x y 0
  simp only [UInt8.toNat_zero, Nat.or_zero, Nat.zero_div, add_zero] at ha hb hc
  exact ⟨ha, hb, hc⟩

theorem value_packed_single (x : UInt8) :
    Base64.value (base64Char (x.toNat <<< 16 >>> 18)) = some (x.toNat / 4) ∧
      Base64.value (base64Char (x.toNat <<< 16 >>> 12)) = some (x.toNat % 4 * 16) := by
  obtain ⟨ha, hb, _⟩ := value_packed_pair x 0
  simp only [UInt8.toNat_zero, Nat.zero_shiftLeft, Nat.or_zero, Nat.zero_div, add_zero] at ha hb
  exact ⟨ha, hb⟩

/-! ### Decoding -/

/-- **The reference decoder** reads the bytes back. -/
theorem decode_base64Encode (input : Bytes) :
    Base64.decode (base64Encode input) = some input := by
  fun_induction base64Encode input with
  | case1 => rfl
  | case2 x v =>
    obtain ⟨ha, hb⟩ := value_packed_single x
    change Base64.decode [_, _, Base64.pad, Base64.pad] = _
    rw [Base64.decode, if_neg fun h => h.2 rfl, Base64.quantum_single ha hb]
    rfl
  | case3 x y v =>
    obtain ⟨ha, hb, hc⟩ := value_packed_pair x y
    change Base64.decode [_, _, _, Base64.pad] = _
    rw [Base64.decode, if_neg fun h => h.2 rfl, Base64.quantum_pair ha hb hc]
    rfl
  | case4 x y z rest v ih =>
    obtain ⟨ha, hb, hc, hd⟩ := value_packed x y z
    have hpad := Base64.ne_pad_of_value hd
    rw [Base64.decode, if_neg fun h => hpad h.1, Base64.quantum_triple ha hb hc hd, ih]
    rfl

/-- The text is made of characters of the alphabet, and of padding behind them. -/
theorem base64Encode_eq_append (input : Bytes) :
    ∃ body, (∀ c ∈ body, c ∈ Base64.alphabet) ∧
      base64Encode input = body ++ List.replicate ((3 - input.length % 3) % 3) Base64.pad := by
  have hchar : ∀ n, base64Char n ∈ Base64.alphabet := fun n =>
    Base64.mem_alphabet_of_value (value_base64Char n)
  fun_induction base64Encode input with
  | case1 => exact ⟨[], by simp, rfl⟩
  | case2 x v =>
    exact ⟨[base64Char (v >>> 18), base64Char (v >>> 12)], by simp [hchar], rfl⟩
  | case3 x y v =>
    exact ⟨[base64Char (v >>> 18), base64Char (v >>> 12), base64Char (v >>> 6)], by simp [hchar],
      rfl⟩
  | case4 x y z rest v ih =>
    obtain ⟨body, hbody, hrest⟩ := ih
    have hlength : (x :: y :: z :: rest).length % 3 = rest.length % 3 := by
      simp only [List.length_cons]
      omega
    refine ⟨base64Char (v >>> 18) :: base64Char (v >>> 12) :: base64Char (v >>> 6) ::
      base64Char v :: body, by simpa [hchar] using hbody, ?_⟩
    rw [hlength, hrest]
    rfl

/-- **The text is the base 64 of the bytes.** -/
theorem base64Encode_correct :
    (∀ x : Bytes, (base64Encode x).length = 4 * (x.length ⌈/⌉ 3) ∧
      (∃ body, (∀ c ∈ body, c ∈ Base64.alphabet) ∧
        base64Encode x = body ++ List.replicate
          (if x.length % 3 = 0 then 0 else if x.length % 3 = 2 then 1 else 2) Base64.pad) ∧
      Base64.decode (base64Encode x) = some x) ∧
    Function.Injective base64Encode := by
  refine ⟨fun x => ⟨?_, ?_, decode_base64Encode x⟩, ?_⟩
  · rw [length_base64Encode, Nat.ceilDiv_eq_add_pred_div]
    rfl
  · obtain ⟨body, hbody, heq⟩ := base64Encode_eq_append x
    have hpadding : (3 - x.length % 3) % 3 =
        if x.length % 3 = 0 then 0 else if x.length % 3 = 2 then 1 else 2 := by
      split_ifs <;> omega
    exact ⟨body, hbody, hpadding ▸ heq⟩
  · intro x y h
    have hdecode := congrArg Base64.decode h
    rwa [decode_base64Encode, decode_base64Encode, Option.some.injEq] at hdecode

example : base64Encode (ascii "foob") = ascii "Zm9vYg==" := by decide +kernel

end XNetty
