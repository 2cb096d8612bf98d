import XNetty.Buffer.RawBuf
import XNetty.Event.SpscQueue

/-!
# The loops that double a word

`ensureWritable` and `nextPowerOfTwo` double a word until it is large enough. A word doubled too
often is zero, from where it never gets on, and a bound that has wrapped around is soon met.

## Main definitions

* `RawBuf.MakesRoom`, `Event.ReturnsLeastPower` — what is expected of the two.
* `doubling_iff` — when it is met.
-/

namespace XNetty

namespace Event

variable {n : ℕ}

/-- `nextPowerOfTwo` ends, with the least power of two that is enough when some word is one. -/
def ReturnsLeastPower (n : ℕ) : Prop :=
  ∃ r, nextPowerOfTwo n = some r ∧
    ((∃ k, n ≤ 2 ^ k ∧ 2 ^ k < 2 ^ 64) → IsLeast {p | n ≤ p ∧ ∃ k, p = 2 ^ k} r)

theorem le_of_doubled {turns p r : ℕ} (h : doubled n turns p = some r) : n ≤ r := by
  induction turns generalizing p with
  | zero => cases h
  | succ turns ih =>
    rw [doubled] at h
    split at h
    · exact ih h
    · obtain rfl := Option.some.inj h
      omega

/-- The loop stops at the first power that is enough: all before were too small. -/
theorem doubled_le {turns k r : ℕ} (hn : n ≤ 2 ^ 63) (hk : ∀ j < k, 2 ^ j < n)
    (h : doubled n turns (2 ^ k) = some r) {j : ℕ} (hj : n ≤ 2 ^ j) : r ≤ 2 ^ j := by
  induction turns generalizing k with
  | zero => cases h
  | succ turns ih =>
    by_cases hlt : 2 ^ k < n
    · rw [(doubled_turn hn hlt turns).2] at h
      refine ih (fun i hi => ?_) h
      obtain rfl | hi := Nat.eq_or_lt_of_le (Nat.le_of_lt_succ hi)
      · exact hlt
      · exact hk i hi
    · rw [doubled, if_neg hlt] at h
      obtain rfl := Option.some.inj h
      have hkj : k ≤ j := Nat.le_of_not_lt fun hjk => absurd (hk j hjk) (Nat.not_lt.mpr hj)
      exact Nat.pow_le_pow_right (by decide) hkj

/-- **`nextPowerOfTwo`** does what it should for every size up to `2 ^ 63`, and ends for no
other. -/
theorem returnsLeastPower_iff (n : ℕ) : ReturnsLeastPower n ↔ n ≤ 2 ^ 63 := by
  constructor
  · rintro ⟨r, hr, -⟩
    obtain ⟨k, hk, rfl⟩ := nextPowerOfTwo_pow hr
    have hle : 2 ^ k ≤ 2 ^ 63 := Nat.pow_le_pow_right (by decide) hk
    unfold nextPowerOfTwo at hr
    split at hr
    · omega
    · exact (le_of_doubled hr).trans hle
  · intro hn
    obtain ⟨r, hr, hle⟩ := nextPowerOfTwo_isSome hn
    obtain ⟨k, -, hpow⟩ := nextPowerOfTwo_pow hr
    refine ⟨r, hr, fun _ => ⟨⟨hle, k, hpow⟩, ?_⟩⟩
    rintro p ⟨hp, j, rfl⟩
    unfold nextPowerOfTwo at hr
    split at hr
    · obtain rfl := Option.some.inj hr
      exact Nat.one_le_two_pow
    · exact doubled_le (k := 0) hn (fun j hj => absurd hj (Nat.not_lt_zero j)) hr hp

end Event

namespace RawBuf

variable {b : RawBuf} {len : UInt64}

/-- `ensureWritable(len)` comes back, whether or not `realloc` finds the memory, and when it does
not throw there is room for `len` bytes. -/
def MakesRoom (b : RawBuf) (len : UInt64) : Prop :=
  ∀ granted, (b.ensureWritable granted len).1 ≠ .never ∧
    ((b.ensureWritable granted len).1 = .returned () →
      (b.ensureWritable granted len).2.writerIndex.toNat + len.toNat ≤
        (b.ensureWritable granted len).2.data.length)

/-- With the memory it asks for, `ensureWritable` does not throw, and it never moves an index. -/
theorem ensureWritable_granted (b : RawBuf) (len : UInt64) :
    ((b.ensureWritable true len).1 = .never ∨ (b.ensureWritable true len).1 = .returned ()) ∧
      (b.ensureWritable true len).2.writerIndex = b.writerIndex := by
  unfold ensureWritable
  split
  · cases grow (b.writerIndex + len) 65 b.base with
    | some newCap => exact ⟨.inr rfl, rfl⟩
    | none => exact ⟨.inl rfl, rfl⟩
  · exact ⟨.inr rfl, rfl⟩

/-- **`ensureWritable`** does what it should when the size that is needed is a word, and is there
or is reached by doubling. -/
theorem makesRoom_iff (b : RawBuf) (len : UInt64) :
    b.MakesRoom len ↔ b.writerIndex.toNat + len.toNat < 2 ^ 64 ∧ b.Expandable len := by
  by_cases hsize : b.writerIndex.toNat + len.toNat < 2 ^ 64
  · rw [and_iff_right hsize]
    constructor
    · intro h
      by_contra hexp
      rcases ensureWritable_cases true hsize with ⟨-, hnever⟩ | ⟨hexp', -⟩
      · exact (h true).1 (by rw [hnever])
      · exact hexp hexp'
    · intro hexp granted
      rcases ensureWritable_cases granted hsize with ⟨hno, -⟩ | ⟨-, ⟨hroom, heq⟩ | ⟨c, hc, -, heq⟩⟩
      · exact absurd hexp hno
      · rw [heq]
        exact ⟨nofun, fun _ => hroom⟩
      · rw [heq]
        cases granted with
        | true => exact ⟨nofun, fun _ => (length_data_realloc b c).symm ▸ hc⟩
        | false => exact ⟨nofun, nofun⟩
  · -- No storage is as long as the size that is needed.
    refine iff_of_false (fun h => ?_) fun h => hsize h.1
    obtain ⟨hends, hwriter⟩ := b.ensureWritable_granted len
    have hroom := (h true).2 (hends.resolve_left (h true).1)
    rw [hwriter] at hroom
    exact hsize (hroom.trans_lt (b.ensureWritable true len).2.fits)

/-- **A loop that has not ended** after as many turns as there are bits never does. -/
theorem grow_never {need c : UInt64} (h : grow need 65 c = none) (turns : ℕ) :
    grow need turns c = none := by
  cases hr : grow need turns c with
  | none => rfl
  | some newCap =>
    obtain ⟨k, -, hk⟩ := (grow_isSome_iff need c turns).mp (by rw [hr]; rfl)
    have hsome := (grow_isSome_iff need c 65).mpr ((exists_turn_iff need c).mpr ⟨k, hk⟩)
    rw [h] at hsome
    cases hsome

end RawBuf

/-- **The doubling loops**: `ensureWritable` comes back, and with room if it does not throw, just
when the size that is needed is a word that is there or is reached by doubling; `nextPowerOfTwo`
comes back, and with the least power, just when its argument is at most `2 ^ 63`. -/
theorem doubling_iff (b : RawBuf) (len : UInt64) (n : ℕ) :
    (b.MakesRoom len ↔ b.writerIndex.toNat + len.toNat < 2 ^ 64 ∧ b.Expandable len) ∧
      (Event.ReturnsLeastPower n ↔ n ≤ 2 ^ 63) :=
  ⟨b.makesRoom_iff len, Event.returnsLeastPower_iff n⟩

/-- A buffer that holds one byte, with no room for a second. -/
def RawBuf.oneByte : RawBuf :=
  .ofBytes [0] (Nat.one_lt_two_pow (Nat.succ_ne_zero 63))

theorem Event.nextPowerOfTwo_eq_none : Event.nextPowerOfTwo (2 ^ 63 + 1) = none := by
  decide +kernel

/-- An empty buffer for which doubling goes on for ever, a size that wraps around, and a size that
no power of two below `2 ^ 64` reaches. -/
theorem not_doubling :
    ¬RawBuf.empty.MakesRoom 0x8000000000000001 ∧
      ¬RawBuf.oneByte.MakesRoom 0xFFFFFFFFFFFFFFFF ∧
      ¬Event.ReturnsLeastPower (2 ^ 63 + 1) := by
  refine ⟨fun h => (h true).1 (by decide +kernel), fun h => ?_, ?_⟩
  · exact absurd ((h true).2 (by decide +kernel)) (by decide +kernel)
  · rintro ⟨r, hr, -⟩
    rw [Event.nextPowerOfTwo_eq_none] at hr
    cases hr

end XNetty
