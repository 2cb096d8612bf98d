import XNetty.Lib.Ring
import Mathlib.Data.Int.CardIntervalMod

/-!
# A group of event loops

`EventLoopGroup` gives out its loops by turns, with a counter that wraps around like every
`size_t`, or by load, where it draws two of them and takes the one with fewer connections. The
draws come from the environment.

## Main definitions

* `EventLoopGroup.next`, `EventLoopGroup.turns` — a loop by turns, and the loops of many calls.
* `EventLoopGroup.Fair` — the turns are shared evenly among the loops.
* `EventLoopGroup.leastLoaded` — a loop by load.
-/

namespace XNetty.Event

namespace EventLoopGroup

/-! ### By turns -/

/-- `EventLoopGroup::next` of `n` loops: the loop given out, and `next_` afterwards. -/
def next (n next_ : ℕ) : Option ℕ × ℕ :=
  if n = 0 then (none, next_) else (some (next_ % n), (next_ + 1) % 2 ^ 64)

/-- The loops that `m` calls of `next` give out. -/
def turns (n : ℕ) : ℕ → ℕ → List ℕ
  | 0, _ => []
  | m + 1, next_ => (next n next_).1.toList ++ turns n m (next n next_).2

/-- However often `next` is called, and wherever the counter stands before, every loop has its
share of the calls, rounded down or up. -/
def Fair (n : ℕ) : Prop :=
  ∀ next_ < 2 ^ 64, ∀ m, ∀ i < n,
    m / n ≤ (turns n m next_).count i ∧ (turns n m next_).count i ≤ (m + n - 1) / n

variable {n : ℕ}

theorem turns_eq (hn : 0 < n) (m : ℕ) {next_ : ℕ} (hnext : next_ < 2 ^ 64) :
    turns n m next_ = (List.range m).map fun k => (next_ + k) % 2 ^ 64 % n := by
  induction m generalizing next_ with
  | zero => rfl
  | succ m ih =>
    have hfirst : next n next_ = (some (next_ % n), (next_ + 1) % 2 ^ 64) := if_neg hn.ne'
    have hshift : ∀ k, ((next_ + 1) % 2 ^ 64 + k) % 2 ^ 64 % n =
        (next_ + (k + 1)) % 2 ^ 64 % n := by
      intro k
      rw [Nat.mod_add_mod, Nat.add_assoc, Nat.add_comm 1]
    have hzero : (next_ + 0) % 2 ^ 64 % n = next_ % n := by
      rw [Nat.add_zero, Nat.mod_eq_of_lt hnext]
    rw [turns, hfirst, ih (Nat.mod_lt _ (by decide)), List.range_succ_eq_map, List.map_cons,
      List.map_map, hzero]
    exact congrArg (next_ % n :: ·) (List.map_congr_left fun k _ => hshift k)

theorem count_map_range (f : ℕ → ℕ) (i m : ℕ) :
    ((List.range m).map f).count i = Nat.count (fun k => f k = i) m := by
  induction m with
  | zero => rfl
  | succ m ih =>
    rw [List.range_succ, List.map_append, List.count_append, ih, Nat.count_succ]
    simp [List.count_singleton]

/-- Where the counter does not get past its end, the turns are counted by residues. -/
theorem count_residues (hn : 0 < n) (c m : ℕ) {i : ℕ} (hi : i < n) :
    ∃ v, Nat.count (fun k => (c + k) % n = i) m = m / n + if v % n < m % n then 1 else 0 := by
  -- the loop of call `k` is `i` where `k` is `i - c` modulo `n`
  have hzero : c + (i + c * (n - 1)) ≡ i [MOD n] := by
    have hsum : c + (i + c * (n - 1)) = i + c * n := by
      obtain ⟨n, rfl⟩ := Nat.exists_eq_succ_of_ne_zero hn.ne'
      simp only [Nat.succ_eq_add_one, Nat.add_sub_cancel]
      ring
    rw [hsum]
    exact (Nat.add_mul_mod_self_right i c n)
  have hresidue : ∀ k, (c + k) % n = i ↔ k ≡ i + c * (n - 1) [MOD n] := by
    intro k
    constructor
    · intro hk
      have hmod : c + k ≡ i [MOD n] := hk.trans (Nat.mod_eq_of_lt hi).symm
      exact (hmod.trans hzero.symm).add_left_cancel' c
    · intro hk
      have hmod : (c + k) % n = i % n := (hk.add_left c).trans hzero
      exact hmod.trans (Nat.mod_eq_of_lt hi)
  refine ⟨i + c * (n - 1), ?_⟩
  rw [← Nat.count_modEq_card m hn]
  simp only [hresidue]

theorem div_add_one_le (hn : 0 < n) {m : ℕ} (hm : 0 < m % n) : m / n + 1 ≤ (m + n - 1) / n := by
  have hsplit := Nat.div_add_mod' m n
  rw [Nat.le_div_iff_mul_le hn, Nat.add_one_mul]
  omega

theorem fair_of_dvd (hn : 0 < n) (hdvd : n ∣ 2 ^ 64) : Fair n := by
  intro next_ hnext m i hi
  have hturns : turns n m next_ = (List.range m).map fun k => (next_ + k) % n := by
    rw [turns_eq hn m hnext]
    simp only [Nat.mod_mod_of_dvd _ hdvd]
  obtain ⟨v, hcount⟩ := count_residues hn next_ m hi
  rw [hturns, count_map_range, hcount]
  refine ⟨Nat.le_add_right _ _, ?_⟩
  split
  · exact div_add_one_le hn (by omega)
  · exact Nat.div_le_div_right (by omega)

/-- The counter gets back to loop `0` too early. -/
theorem not_fair (hn : 0 < n) (hdvd : ¬n ∣ 2 ^ 64) : ¬Fair n := by
  intro hfair
  have hpos : 0 < 2 ^ 64 % n := Nat.pos_of_ne_zero fun h => hdvd (Nat.dvd_of_mod_eq_zero h)
  have hlt : 2 ^ 64 % n < n := Nat.mod_lt _ hn
  have hle : 2 ^ 64 % n ≤ 2 ^ 64 := Nat.mod_le _ _
  -- the last multiple of `n` that the counter can hold
  obtain ⟨c, hc⟩ : ∃ c, c = 2 ^ 64 - 2 ^ 64 % n := ⟨_, rfl⟩
  have hzero : c % n = 0 := by
    rw [hc]
    exact Nat.mod_eq_zero_of_dvd (Nat.dvd_sub_mod _)
  generalize 2 ^ 64 % n = r at hpos hlt hle hc
  have hbound := (hfair c (by omega) (r + 1) 0 hn).2
  rw [turns_eq hn _ (by omega), List.range_succ, List.map_append, List.count_append] at hbound
  have hfirst : 0 < ((List.range r).map fun k => (c + k) % 2 ^ 64 % n).count 0 := by
    rw [List.count_pos_iff]
    refine List.mem_map.mpr ⟨0, List.mem_range.mpr hpos, ?_⟩
    rw [Nat.add_zero, Nat.mod_eq_of_lt (show c < 2 ^ 64 by omega), hzero]
  have hlast : (c + r) % 2 ^ 64 % n = 0 := by
    rw [show c + r = 2 ^ 64 by omega, Nat.mod_self, Nat.zero_mod]
  have hone : (r + 1 + n - 1) / n = 1 := by
    rw [show r + 1 + n - 1 = r + n by omega, Nat.add_div_right _ hn, Nat.div_eq_of_lt hlt]
  rw [hone, List.map_singleton, hlast, List.count_singleton_self] at hbound
  omega

/-- **When the turns are fair.** The wrap of the counter takes turns away from the last loops,
unless their number divides the number of its values. -/
theorem fair_iff_dvd (hn : 0 < n) : Fair n ↔ n ∣ 2 ^ 64 := by
  constructor
  · intro hfair
    by_contra hdvd
    exact not_fair hn hdvd hfair
  · exact fair_of_dvd hn

theorem fair_iff_dvd_four : Fair 4 :=
  (fair_iff_dvd (by decide)).mpr (Nat.pow_dvd_pow 2 (by decide : 2 ≤ 64))

/-- Three loops, with the counter at its last value. -/
example : turns 3 2 (2 ^ 64 - 1) = [0, 0] := by decide

/-! ### By load -/

/-- The two loops that `leastLoaded` compares. -/
def candidates (hn : 0 < n) (r₁ r₂ : ℕ) : Fin n × Fin n :=
  (⟨r₁ % n, Nat.mod_lt _ hn⟩, ⟨(r₁ % n + 1 + r₂ % (n - 1)) % n, Nat.mod_lt _ hn⟩)

/-- `EventLoopGroup::leastLoaded` with the two numbers that `rng_` gives. -/
def leastLoaded (connectionCount : Fin n → ℕ) (r₁ r₂ : ℕ) : Option (Fin n) :=
  if hn : 0 < n then
    if n = 1 then some ⟨0, hn⟩
    else
      let (a, b) := candidates hn r₁ r₂
      some (if connectionCount a < connectionCount b then a else b)
  else none

theorem candidates_ne (hn : 1 < n) (r₁ r₂ : ℕ) :
    (candidates (Nat.zero_lt_of_lt hn) r₁ r₂).1 ≠ (candidates (Nat.zero_lt_of_lt hn) r₁ r₂).2 := by
  have hpos : 0 < n := Nat.zero_lt_of_lt hn
  have hr₁ : r₁ % n < n := Nat.mod_lt _ hpos
  have hr₂ : r₂ % (n - 1) < n - 1 := Nat.mod_lt _ (by omega)
  intro heq
  have hval : r₁ % n % n = (r₁ % n + 1 + r₂ % (n - 1)) % n :=
    (Nat.mod_mod _ _).trans (congrArg Fin.val heq)
  rw [Ring.mod_eq_mod_iff (by omega) (by omega)] at hval
  omega

/-- Of draws that are even, so are the candidates: every pair of loops comes from one pair of
residues. -/
theorem candidates_existsUnique (hn : 1 < n) {a b : Fin n} (hne : a ≠ b) :
    ∃! r : Fin n × Fin (n - 1), candidates (Nat.zero_lt_of_lt hn) r.1 r.2 = (a, b) := by
  have hpos : 0 < n := Nat.zero_lt_of_lt hn
  have hval : (a : ℕ) ≠ b := fun h => hne (Fin.ext h)
  have ha : (a : ℕ) < n := a.isLt
  have hb : (b : ℕ) < n := b.isLt
  have hdraw : ∀ r : Fin n × Fin (n - 1),
      candidates hpos r.1 r.2 = (a, b) ↔ r.1 = a ∧ (a + 1 + (r.2 : ℕ)) % n = b := by
    rintro ⟨r₁, r₂⟩
    simp only [candidates, Prod.mk.injEq, Fin.ext_iff, Nat.mod_eq_of_lt r₁.isLt,
      Nat.mod_eq_of_lt r₂.isLt]
    constructor
    · rintro ⟨h₁, h₂⟩
      exact ⟨h₁, h₁ ▸ h₂⟩
    · rintro ⟨h₁, h₂⟩
      exact ⟨h₁, h₁.symm ▸ h₂⟩
  -- the loop `b` lies this far behind the one after `a`
  obtain ⟨d, hd, hlands⟩ : ∃ d : ℕ, d < n - 1 ∧ (a + 1 + d) % n = b := by
    rcases Nat.lt_or_gt_of_ne hval with hlt | hgt
    · exact ⟨b - a - 1, by omega, by rw [show a + 1 + (b - a - 1) = (b : ℕ) by omega,
        Nat.mod_eq_of_lt hb]⟩
    · exact ⟨n + b - a - 1, by omega, by rw [show a + 1 + (n + b - a - 1) = b + n by omega,
        Nat.add_mod_right, Nat.mod_eq_of_lt hb]⟩
  refine ⟨(a, ⟨d, hd⟩), (hdraw _).mpr ⟨rfl, hlands⟩, ?_⟩
  rintro ⟨r₁, r₂⟩ hr
  obtain ⟨rfl, hr₂⟩ := (hdraw _).mp hr
  have hsame : (r₁ + 1 + d) % n = (r₁ + 1 + r₂) % n := hlands.trans hr₂.symm
  have hr₂lt : (r₂ : ℕ) < n - 1 := r₂.isLt
  refine Prod.ext rfl (Fin.ext ?_)
  rcases Nat.le_total d r₂ with hle | hle
  · have := (Ring.mod_eq_mod_iff (by omega) (by omega)).mp hsame
    change (r₂ : ℕ) = d
    omega
  · have := (Ring.mod_eq_mod_iff (by omega) (by omega)).mp hsame.symm
    change (r₂ : ℕ) = d
    omega

/-- **The choice.** Of two or more loops, one is taken that has no more connections than
another. -/
theorem leastLoaded_spec (hn : 1 < n) (connectionCount : Fin n → ℕ) (r₁ r₂ : ℕ) :
    ∃ chosen other, leastLoaded connectionCount r₁ r₂ = some chosen ∧ other ≠ chosen ∧
      connectionCount chosen ≤ connectionCount other := by
  have hpos : 0 < n := Nat.zero_lt_of_lt hn
  have hne := candidates_ne hn r₁ r₂
  have hchoice : leastLoaded connectionCount r₁ r₂ =
      some (if connectionCount (candidates hpos r₁ r₂).1 <
        connectionCount (candidates hpos r₁ r₂).2
        then (candidates hpos r₁ r₂).1 else (candidates hpos r₁ r₂).2) := by
    rw [leastLoaded, dif_pos hpos, if_neg (by omega)]
  by_cases hlt : connectionCount (candidates hpos r₁ r₂).1 <
      connectionCount (candidates hpos r₁ r₂).2
  · exact ⟨_, _, hchoice.trans (congrArg some (if_pos hlt)), hne.symm, hlt.le⟩
  · exact ⟨_, _, hchoice.trans (congrArg some (if_neg hlt)), hne, Nat.le_of_not_lt hlt⟩

end EventLoopGroup

end XNetty.Event
