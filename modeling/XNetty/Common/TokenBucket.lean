import XNetty.Lib.Transcript

/-!
# Token buckets

A bucket holds at most `burst` tokens and gains `rate` of them a second. A request is granted when
the bucket holds what it asks for. Tokens are rationals here, and times whole microseconds.

## Main definitions

* `TokenBucket` — the bucket, with `refill` and `tryConsume`.
* `Ask`, `granted` — the requests made of a bucket, and what they are given.
* `TokenBucket.granted_le` — the bound on what any window of requests is given.
-/

namespace XNetty

structure TokenBucket where
  tokens : ℚ
  rate : ℚ
  burst : ℚ
  lastRefill : ℤ
  deriving DecidableEq

namespace TokenBucket

/-- The constructor; `now` is what `steady_clock` reads. -/
def create (rate burst : ℚ) (now : ℤ) : TokenBucket := ⟨burst, rate, burst, now⟩

variable (b : TokenBucket)

/-- A bucket that is asked twice within a microsecond is left alone. -/
def refill (now : ℤ) : TokenBucket :=
  let elapsed := now - b.lastRefill
  if elapsed ≤ 0 then b
  else
    { b with
      tokens := min (b.tokens + b.rate * elapsed / 1000000) b.burst
      lastRefill := now }

def tryConsume (now : ℤ) (tokens : ℚ) : Bool × TokenBucket :=
  let current := (b.refill now).tokens
  if tokens ≤ current then (true, { b.refill now with tokens := current - tokens })
  else (false, b.refill now)

def setRate (b : TokenBucket) (rate burst : ℚ) (now : ℤ) : TokenBucket :=
  { b with rate := rate, burst := burst, tokens := burst, lastRefill := now }

/-- Nothing of the old rate is left behind `setRate`, so what follows it is a run of its own. -/
theorem setRate_eq_create (rate burst : ℚ) (now : ℤ) :
    b.setRate rate burst now = create rate burst now := rfl

/-! ### One request -/

/-- `tryConsume(tokens)`, made when the clock reads `time`. -/
structure Ask where
  time : ℤ
  tokens : ℚ

/-- A request, and what it is given. -/
def ask (a : Ask) : ℚ × TokenBucket :=
  let (yes, next) := b.tryConsume a.time a.tokens
  (if yes then a.tokens else 0, next)

/-- The tokens stay between nothing and the burst. -/
structure Level (b : TokenBucket) : Prop where
  rate_nonneg : 0 ≤ b.rate
  nonneg : 0 ≤ b.tokens
  le_burst : b.tokens ≤ b.burst

variable {b}

theorem Level.create {rate burst : ℚ} (hrate : 0 ≤ rate) (hburst : 0 ≤ burst) (now : ℤ) :
    Level (create rate burst now) :=
  ⟨hrate, hburst, le_rfl⟩

/-- What a bucket gains is at most what has accrued, and the clock has been read. -/
theorem refill_spec (h : Level b) {now : ℤ} (hnow : b.lastRefill ≤ now) :
    Level (b.refill now) ∧ (b.refill now).lastRefill = now ∧
      (b.refill now).rate = b.rate ∧ (b.refill now).burst = b.burst ∧
      (b.refill now).tokens ≤ b.tokens + b.rate * (now - b.lastRefill) / 1000000 := by
  unfold refill
  by_cases hpast : now - b.lastRefill ≤ 0
  · -- The clock does not run backwards, so it reads what it read before.
    have hsame : b.lastRefill = now := by omega
    rw [if_pos hpast]
    refine ⟨h, hsame, rfl, rfl, ?_⟩
    simp [hsame]
  · have helapsed : (0 : ℚ) ≤ ((now - b.lastRefill : ℤ) : ℚ) := by
      exact_mod_cast (by omega : 0 ≤ now - b.lastRefill)
    have hgain : 0 ≤ b.rate * ((now - b.lastRefill : ℤ) : ℚ) / 1000000 :=
      div_nonneg (mul_nonneg h.rate_nonneg helapsed) (by norm_num)
    rw [if_neg hpast]
    refine ⟨⟨h.rate_nonneg, ?_, min_le_right _ _⟩, rfl, rfl, rfl, ?_⟩
    · exact le_min (add_nonneg h.nonneg hgain) (h.nonneg.trans h.le_burst)
    · push_cast
      exact min_le_left _ _

/-- **One request**: what it is given is taken out of the bucket. -/
theorem ask_spec (h : Level b) {a : Ask} (hasked : 0 ≤ a.tokens) (hnow : b.lastRefill ≤ a.time) :
    Level (b.ask a).2 ∧ (b.ask a).2.lastRefill = a.time ∧
      (b.ask a).2.rate = b.rate ∧ (b.ask a).2.burst = b.burst ∧
      (b.ask a).1 + (b.ask a).2.tokens = (b.refill a.time).tokens := by
  obtain ⟨hlevel, htime, hrate, hburst, _⟩ := refill_spec h hnow
  unfold ask tryConsume
  by_cases henough : a.tokens ≤ (b.refill a.time).tokens
  · simp only [if_pos henough, if_true]
    refine ⟨⟨hlevel.rate_nonneg, sub_nonneg.mpr henough, ?_⟩, htime, hrate, hburst, by ring⟩
    exact (sub_le_self _ hasked).trans hlevel.le_burst
  · simp only [if_neg henough, Bool.false_eq_true, if_false]
    exact ⟨hlevel, htime, hrate, hburst, zero_add _⟩

/-! ### Windows of requests -/

open Transcript

/-- What the requests are given, in all. -/
def granted (b : TokenBucket) (asks : List Ask) : ℚ := (transcript ask b asks).sum

theorem granted_cons (b : TokenBucket) (a : Ask) (asks : List Ask) :
    granted b (a :: asks) = (b.ask a).1 + granted (b.ask a).2 asks := by
  simp [granted, transcript]

/-- Requests that the clock allows from `time` on: it never runs backwards, and none asks for less
than nothing. -/
structure InOrder (time : ℤ) (asks : List Ask) : Prop where
  clock : (time :: asks.map Ask.time).IsChain (· ≤ ·)
  nonneg : ∀ a ∈ asks, 0 ≤ a.tokens

theorem inOrder_cons {time : ℤ} {a : Ask} {asks : List Ask} :
    InOrder time (a :: asks) ↔ time ≤ a.time ∧ 0 ≤ a.tokens ∧ InOrder a.time asks := by
  constructor
  · rintro ⟨hclock, hnonneg⟩
    rw [List.map_cons, List.isChain_cons_cons] at hclock
    exact ⟨hclock.1, hnonneg a List.mem_cons_self, hclock.2,
      fun a' ha' => hnonneg a' (List.mem_cons_of_mem a ha')⟩
  · rintro ⟨htime, ha, hclock, hnonneg⟩
    exact ⟨List.isChain_cons_cons.mpr ⟨htime, hclock⟩, List.forall_mem_cons.mpr ⟨ha, hnonneg⟩⟩

theorem InOrder.left {time : ℤ} {asks later : List Ask} (h : InOrder time (asks ++ later)) :
    InOrder time asks where
  clock := by
    have hclock := h.clock
    rw [List.map_append, ← List.cons_append] at hclock
    exact hclock.left_of_append
  nonneg a ha := h.nonneg a (List.mem_append_left later ha)

/-- The bucket at a moment of a run, with the requests that are still to come. -/
theorem foldl_spec (h : Level b) {done asks : List Ask}
    (horder : InOrder b.lastRefill (done ++ asks)) :
    Level (done.foldl (next ask) b) ∧ (done.foldl (next ask) b).rate = b.rate ∧
      (done.foldl (next ask) b).burst = b.burst ∧
      InOrder (done.foldl (next ask) b).lastRefill asks := by
  induction done generalizing b with
  | nil => exact ⟨h, rfl, rfl, horder⟩
  | cons a done ih =>
    obtain ⟨htime, hasked, hrest⟩ := inOrder_cons.mp horder
    obtain ⟨hlevel, hlast, hrate, hburst, _⟩ := ask_spec h hasked htime
    obtain ⟨hlevel', hrate', hburst', horder'⟩ := ih hlevel (hlast ▸ hrest)
    exact ⟨hlevel', hrate'.trans hrate, hburst'.trans hburst, horder'⟩

/-- **The run**: what is given and what is left come from what was there and what has accrued. -/
theorem granted_add_tokens_le (h : Level b) {asks : List Ask}
    (horder : InOrder b.lastRefill asks) :
    granted b asks + (asks.foldl (next ask) b).tokens ≤ b.tokens +
      b.rate * ((asks.map Ask.time).getLastD b.lastRefill - b.lastRefill) / 1000000 := by
  induction asks generalizing b with
  | nil => simp [granted, transcript]
  | cons a asks ih =>
    obtain ⟨htime, hasked, hrest⟩ := inOrder_cons.mp horder
    obtain ⟨_, _, _, _, hrefill⟩ := refill_spec h htime
    obtain ⟨hlevel, hlast, hrate, _, hgiven⟩ := ask_spec h hasked htime
    have hlater := ih hlevel (hlast ▸ hrest)
    rw [hlast, hrate] at hlater
    rw [granted_cons, List.foldl_cons, List.map_cons, List.getLastD_cons]
    generalize ((asks.map Ask.time).getLastD a.time : ℤ) = last at hlater ⊢
    calc (b.ask a).1 + granted (b.ask a).2 asks + (asks.foldl (next ask) (next ask b a)).tokens
        ≤ (b.ask a).1 + ((b.ask a).2.tokens + b.rate * (last - a.time) / 1000000) := by
          rw [add_assoc]
          exact add_le_add_right hlater _
      _ = (b.refill a.time).tokens + b.rate * (last - a.time) / 1000000 := by
          rw [← hgiven, add_assoc]
      _ ≤ b.tokens + b.rate * (a.time - b.lastRefill) / 1000000 +
            b.rate * (last - a.time) / 1000000 := add_le_add_left hrefill _
      _ = b.tokens + b.rate * (last - b.lastRefill) / 1000000 := by ring

/-- A window is given at most a burst and what accrues while it lasts. -/
theorem granted_cons_le (h : Level b) {first : Ask} {rest : List Ask}
    (horder : InOrder b.lastRefill (first :: rest)) :
    granted b (first :: rest) ≤ b.burst +
      b.rate * ((rest.map Ask.time).getLastD first.time - first.time) / 1000000 := by
  obtain ⟨htime, hasked, hrest⟩ := inOrder_cons.mp horder
  obtain ⟨hfull, _, _, hburst, _⟩ := refill_spec h htime
  obtain ⟨hlevel, hlast, hrate, _, hgiven⟩ := ask_spec h hasked htime
  have hrest : InOrder (b.ask first).2.lastRefill rest := hlast ▸ hrest
  obtain ⟨hleft, _⟩ := foldl_spec hlevel (rest.append_nil.symm ▸ hrest)
  have hnonneg := hleft.nonneg
  have hlater := granted_add_tokens_le hlevel hrest
  have hfirst := hfull.le_burst
  rw [hlast, hrate] at hlater
  rw [hburst, ← hgiven] at hfirst
  rw [granted_cons]
  linarith only [hnonneg, hlater, hfirst]

/-- **The rate is enforced**: the tokens stay between nothing and the burst, and every window of
requests is given at most a burst and what accrues while it lasts. -/
theorem granted_le {rate burst : ℚ} (hrate : 0 ≤ rate) (hburst : 0 ≤ burst) (start : ℤ)
    (asks : List Ask) (hclock : (start :: asks.map Ask.time).IsChain (· ≤ ·))
    (hasks : ∀ a ∈ asks, 0 ≤ a.tokens) :
    (∀ done, done <+: asks →
      let b := done.foldl (next ask) (create rate burst start)
      0 ≤ b.tokens ∧ b.tokens ≤ burst) ∧
    (∀ done a, done ++ [a] <+: asks →
      let b := (done.foldl (next ask) (create rate burst start)).refill a.time
      0 ≤ b.tokens ∧ b.tokens ≤ burst) ∧
    ∀ before first rest after, asks = before ++ (first :: rest) ++ after →
      granted (before.foldl (next ask) (create rate burst start)) (first :: rest) ≤
        burst + rate * ((rest.map Ask.time).getLastD first.time - first.time) / 1000000 := by
  have horder : InOrder start asks := ⟨hclock, hasks⟩
  have hlevel := Level.create hrate hburst start
  refine ⟨?_, ?_, ?_⟩
  · rintro done ⟨later, rfl⟩ b
    obtain ⟨hb, _, hburst', _⟩ := foldl_spec hlevel horder
    exact ⟨hb.nonneg, hb.le_burst.trans_eq hburst'⟩
  · rintro done a ⟨later, rfl⟩ b
    rw [List.append_assoc] at horder
    obtain ⟨hb, _, hburst', hrest⟩ := foldl_spec hlevel horder
    obtain ⟨htime, _⟩ := inOrder_cons.mp hrest
    obtain ⟨hfull, _, _, hburst'', _⟩ := refill_spec hb htime
    exact ⟨hfull.nonneg, hfull.le_burst.trans_eq (hburst''.trans hburst')⟩
  · rintro before first rest after rfl
    obtain ⟨hb, hrate', hburst', hwindow⟩ := foldl_spec hlevel horder.left
    have hgiven := granted_cons_le hb hwindow
    rwa [hrate', hburst'] at hgiven

/-- All that has accrued since the bucket was full can be given, and no more. -/
theorem granted_le_refilled :
    granted (create 2 3 0) [⟨5, 3⟩, ⟨5, 1⟩, ⟨1000005, 2⟩] = 5 ∧
      granted (create 2 3 0) [⟨5, 3⟩, ⟨5, 1⟩, ⟨1000005, 2⟩] ≤
        3 + 2 * ((1000005 : ℤ) - (5 : ℤ)) / 1000000 := by
  have hle := (granted_le (by decide : (0 : ℚ) ≤ 2) (by decide : (0 : ℚ) ≤ 3) 0
    [⟨5, 3⟩, ⟨5, 1⟩, ⟨1000005, 2⟩] (by decide) (by decide)).2.2
  exact ⟨by decide +kernel, hle [] ⟨5, 3⟩ [⟨5, 1⟩, ⟨1000005, 2⟩] [] rfl⟩

end TokenBucket

end XNetty
