import XNetty.Common.TokenBucket
import XNetty.Lib.Ledger

/-!
# A token bucket under several threads

`tryConsume` is cut into its accesses: reading the clock and `lastRefill_`, loading `tokens_`,
storing it. Threads `ι` call it while the clock stands; a schedule says whose access is next.

## Main definitions

* `TokenThreads` — the bucket, where each thread is, and what has been granted.
* `TokenThreads.run` — a schedule of accesses.
* `TokenThreads.Undisturbed` — a deduction stores into the tokens that it loaded.
* `TokenThreads.Accounted` — what the bucket holds while deductions are undisturbed.
-/

namespace XNetty

/-- Where a thread is in `tryConsume(tokens)`. -/
inductive CallPoint where
  | idle
  /-- In `refill`, with the time that has passed. -/
  | refilling (tokens : ℚ) (elapsed : ℤ)
  | refilled (tokens newTokens : ℚ)
  | storedRefill (tokens : ℚ)
  | consuming (tokens : ℚ)
  | deducting (tokens current : ℚ)
  deriving DecidableEq

structure TokenThreads (ι : Type*) where
  bucket : TokenBucket
  clock : ℤ
  calling : ι → CallPoint := fun _ => .idle
  /-- The amounts of the calls that return true, in all. -/
  granted : ℚ := 0

namespace TokenThreads

variable {ι : Type*} [DecidableEq ι]

/-- Thread `i` gets to `point`. -/
def goTo (s : TokenThreads ι) (i : ι) (point : CallPoint) : TokenThreads ι :=
  { s with calling := Function.update s.calling i point }

/-- The next access of thread `i`, in a new `tryConsume(tokens)` when it is in none. -/
def step (s : TokenThreads ι) (call : ι × ℚ) : TokenThreads ι :=
  match s.calling call.1 with
  | .idle =>
    let elapsed := s.clock - s.bucket.lastRefill
    if elapsed ≤ 0 then s.goTo call.1 (.consuming call.2)
    else s.goTo call.1 (.refilling call.2 elapsed)
  | .refilling tokens elapsed =>
    s.goTo call.1 (.refilled tokens
      (min (s.bucket.tokens + s.bucket.rate * elapsed / 1000000) s.bucket.burst))
  | .refilled tokens newTokens =>
    { s with bucket := { s.bucket with tokens := newTokens } }.goTo call.1 (.storedRefill tokens)
  | .storedRefill tokens =>
    { s with bucket := { s.bucket with lastRefill := s.clock } }.goTo call.1 (.consuming tokens)
  | .consuming tokens =>
    if tokens ≤ s.bucket.tokens then s.goTo call.1 (.deducting tokens s.bucket.tokens)
    else s.goTo call.1 .idle
  | .deducting tokens current =>
    { s with
      bucket := { s.bucket with tokens := current - tokens }
      granted := s.granted + tokens }.goTo call.1 .idle

def run (s : TokenThreads ι) (calls : List (ι × ℚ)) : TokenThreads ι := calls.foldl step s

@[simp] theorem run_append (s : TokenThreads ι) (calls calls' : List (ι × ℚ)) :
    s.run (calls ++ calls') = (s.run calls).run calls' := List.foldl_append ..

/-- A bucket that no thread is using, under a clock that stands at its last refill. -/
def start (b : TokenBucket) : TokenThreads ι := { bucket := b, clock := b.lastRefill }

end TokenThreads

/-- The tokens that the next store of a deduction rests on. -/
def CallPoint.loaded : CallPoint → Option ℚ
  | .deducting _ current => some current
  | _ => none

namespace TokenThreads

variable {ι : Type*} [DecidableEq ι] {s : TokenThreads ι} {i : ι}

open Ledger

omit [DecidableEq ι] in
/-- No other thread has stored since this one loaded `tokens_`, or none has changed it. -/
def Undisturbed (s : TokenThreads ι) (call : ι × ℚ) : Prop :=
  ∀ current ∈ (s.calling call.1).loaded, s.bucket.tokens = current

instance (s : TokenThreads ι) (call : ι × ℚ) : Decidable (Undisturbed s call) :=
  inferInstanceAs (Decidable (∀ current ∈ (s.calling call.1).loaded, s.bucket.tokens = current))

/-! ### One thread alone -/

@[simp] theorem goTo_calling (point : CallPoint) : (s.goTo i point).calling i = point :=
  Function.update_self ..

@[simp] theorem goTo_bucket (point : CallPoint) :
    (s.goTo i point).bucket = s.bucket := rfl

@[simp] theorem goTo_goTo (point point' : CallPoint) :
    (s.goTo i point).goTo i point' = s.goTo i point' := by
  simp [goTo]

omit [DecidableEq ι] in
theorem undisturbed_of_loaded {call : ι × ℚ} (h : (s.calling call.1).loaded = none) :
    Undisturbed s call := by
  simp [Undisturbed, h]

/-- `refill` without an access of another thread. -/
theorem refill_alone (hidle : s.calling i = .idle) (tokens : ℚ) :
    ∃ k, Along step Undisturbed s (List.replicate k (i, tokens)) ∧
      s.run (List.replicate k (i, tokens)) =
        { s with bucket := s.bucket.refill s.clock }.goTo i (.consuming tokens) := by
  by_cases helapsed : s.clock - s.bucket.lastRefill ≤ 0
  · refine ⟨1, ⟨undisturbed_of_loaded (by rw [hidle]; rfl), trivial⟩, ?_⟩
    simp [run, step, hidle, helapsed, TokenBucket.refill]
  · refine ⟨4, ?_, ?_⟩
    · simp [Along, Undisturbed, step, hidle, helapsed, CallPoint.loaded]
    · simp [run, step, hidle, helapsed, TokenBucket.refill, goTo]

/-- **A call alone** does what `TokenBucket.tryConsume` does, and is undisturbed. -/
theorem tryConsume_alone (hidle : s.calling i = .idle) (tokens : ℚ) :
    ∃ k, Along step Undisturbed s (List.replicate k (i, tokens)) ∧
      s.run (List.replicate k (i, tokens)) =
        { s with
          bucket := (s.bucket.tryConsume s.clock tokens).2
          granted := s.granted +
            if (s.bucket.tryConsume s.clock tokens).1 then tokens else 0 } := by
  obtain ⟨k, halong, hrun⟩ := refill_alone hidle tokens
  by_cases henough : tokens ≤ (s.bucket.refill s.clock).tokens
  · refine ⟨k + 2, ?_, ?_⟩
    · rw [List.replicate_add, along_append]
      refine ⟨halong, ?_⟩
      rw [← run, hrun]
      simp [Along, Undisturbed, step, goTo, henough, CallPoint.loaded]
    · rw [List.replicate_add, run_append, hrun]
      simp [run, step, goTo, henough, TokenBucket.tryConsume, ← hidle]
  · refine ⟨k + 1, ?_, ?_⟩
    · rw [List.replicate_add, along_append]
      refine ⟨halong, ?_⟩
      rw [← run, hrun]
      simp [Along, Undisturbed, CallPoint.loaded]
    · rw [List.replicate_add, run_append, hrun]
      simp [run, step, goTo, henough, TokenBucket.tryConsume, ← hidle]

/-- A thread that asks alone for all that a bucket holds is granted it. -/
theorem rest_alone (hidle : s.calling i = .idle) (hclock : s.clock ≤ s.bucket.lastRefill) :
    ∃ k, Along step Undisturbed s (List.replicate k (i, s.bucket.tokens)) ∧
      (s.run (List.replicate k (i, s.bucket.tokens))).granted = s.granted + s.bucket.tokens := by
  obtain ⟨k, halong, hrun⟩ := tryConsume_alone hidle s.bucket.tokens
  have hstands : s.bucket.refill s.clock = s.bucket := if_pos (sub_nonpos.mpr hclock)
  have hyes : (s.bucket.tryConsume s.clock s.bucket.tokens).1 = true := by
    simp [TokenBucket.tryConsume, hstands]
  refine ⟨k, halong, ?_⟩
  rw [hrun, hyes]
  rfl

/-! ### Undisturbed runs -/

end TokenThreads

/-- What a call under way goes by, when the bucket holds `held`. While the clock stands, none is
in `refill`. -/
def CallPoint.Backed (held : ℚ) : CallPoint → Prop
  | .idle => True
  | .consuming tokens => 0 < tokens
  | .deducting tokens current => 0 < tokens ∧ tokens ≤ current ∧ held ≤ current
  | _ => False

theorem CallPoint.Backed.mono {held held' : ℚ} (hle : held' ≤ held) {point : CallPoint}
    (h : point.Backed held) : point.Backed held' := by
  cases point with
  | deducting tokens current => exact ⟨h.1, h.2.1, hle.trans h.2.2⟩
  | _ => exact h

namespace TokenThreads

variable {ι : Type*} {s : TokenThreads ι} {i : ι} {total : ℚ}

/-- What has been granted is what the bucket no longer holds. -/
structure Accounted (s : TokenThreads ι) (total : ℚ) : Prop where
  clock : s.clock ≤ s.bucket.lastRefill
  backed : ∀ i, (s.calling i).Backed s.bucket.tokens
  nonneg : 0 ≤ s.bucket.tokens
  sum : s.granted + s.bucket.tokens = total

theorem accounted_start {b : TokenBucket} (hb : 0 ≤ b.tokens) :
    (start b : TokenThreads ι).Accounted b.tokens where
  clock := le_rfl
  backed _ := trivial
  nonneg := hb
  sum := zero_add _

theorem Accounted.granted_le_total (h : s.Accounted total) : s.granted ≤ total := by
  have hnonneg := h.nonneg
  have hsum := h.sum
  linarith only [hnonneg, hsum]

/-- A deduction from the tokens that it loaded. -/
theorem Accounted.deduct (h : s.Accounted total) {tokens : ℚ}
    (hpoint : (CallPoint.deducting tokens s.bucket.tokens).Backed s.bucket.tokens) :
    { s with
      bucket := { s.bucket with tokens := s.bucket.tokens - tokens }
      granted := s.granted + tokens }.Accounted total where
  clock := h.clock
  backed j := (h.backed j).mono (sub_le_self _ hpoint.1.le)
  nonneg := sub_nonneg.mpr hpoint.2.1
  sum := by
    rw [← h.sum]
    ring

variable [DecidableEq ι]

open Ledger

theorem Accounted.goTo (h : s.Accounted total) {point : CallPoint}
    (hpoint : point.Backed s.bucket.tokens) : (s.goTo i point).Accounted total where
  clock := h.clock
  backed j := by
    by_cases hij : j = i
    · subst hij
      simpa using hpoint
    · simpa [TokenThreads.goTo, hij] using h.backed j
  nonneg := h.nonneg
  sum := h.sum

/-- **One access**: an undisturbed one keeps the account. -/
theorem Accounted.step (h : s.Accounted total) {call : ι × ℚ} (hpos : 0 < call.2)
    (hcall : Undisturbed s call) : (s.step call).Accounted total := by
  have hbacked := h.backed call.1
  unfold TokenThreads.step
  cases hpoint : s.calling call.1 with
  | idle =>
    have helapsed : s.clock - s.bucket.lastRefill ≤ 0 := sub_nonpos.mpr h.clock
    dsimp only
    rw [if_pos helapsed]
    exact h.goTo hpos
  | consuming tokens =>
    rw [hpoint] at hbacked
    dsimp only
    split
    case isTrue henough => exact h.goTo ⟨hbacked, henough, le_rfl⟩
    case isFalse => exact h.goTo trivial
  | deducting tokens current =>
    -- No other thread has deducted since `current` was loaded.
    obtain rfl : s.bucket.tokens = current := hcall current (by rw [hpoint]; rfl)
    rw [hpoint] at hbacked
    exact (h.deduct hbacked).goTo trivial
  | _ => exact absurd hbacked (by rw [hpoint]; exact id)

theorem Accounted.run (h : s.Accounted total) {calls : List (ι × ℚ)}
    (hpos : ∀ call ∈ calls, 0 < call.2) (hcalls : Along TokenThreads.step Undisturbed s calls) :
    (s.run calls).Accounted total := by
  induction calls generalizing s with
  | nil => exact h
  | cons call calls ih =>
    obtain ⟨hcall, hrest⟩ := hcalls
    have hstep := h.step (hpos call List.mem_cons_self) hcall
    exact ih hstep (fun call' hmem => hpos call' (List.mem_cons_of_mem call hmem)) hrest

/-- A disturbed deduction stores more than the bucket held, so that its thread can go on to be
granted what is not there. -/
theorem Accounted.overgrants (h : s.Accounted total) {call : ι × ℚ}
    (hcall : ¬Undisturbed s call) :
    ∃ more : List (ι × ℚ), (∀ later ∈ more, 0 < later.2) ∧
      Along TokenThreads.step Undisturbed (s.step call) more ∧
      total < ((s.step call).run more).granted := by
  have hbacked := h.backed call.1
  unfold Undisturbed at hcall
  cases hpoint : s.calling call.1 with
  | deducting tokens current =>
    rw [hpoint] at hbacked hcall
    obtain ⟨hpos, henough, hheld⟩ := hbacked
    have hmore : s.bucket.tokens < current :=
      lt_of_le_of_ne hheld fun heq => hcall fun c hc => heq.trans (Option.some.inj hc)
    have hstep : s.step call = { s with
        bucket := { s.bucket with tokens := current - tokens }
        granted := s.granted + tokens }.goTo call.1 .idle := by
      simp [TokenThreads.step, hpoint]
    have hsum := h.sum
    have hgranted : (s.step call).granted = s.granted + tokens := by rw [hstep]; rfl
    have htokens : (s.step call).bucket.tokens = current - tokens := by rw [hstep]; rfl
    by_cases hleft : current - tokens = 0
    · -- Nothing is left: this deduction has been granted too much already.
      refine ⟨[], by simp, trivial, ?_⟩
      change total < (s.step call).granted
      rw [hgranted]
      linarith only [hsum, hmore, hleft]
    · -- The thread asks for all that is left.
      have hidle : (s.step call).calling call.1 = .idle := by rw [hstep, goTo_calling]
      have hclock : (s.step call).clock ≤ (s.step call).bucket.lastRefill := by
        rw [hstep]
        exact h.clock
      obtain ⟨k, halong, hrun⟩ := rest_alone hidle hclock
      refine ⟨List.replicate k (call.1, (s.step call).bucket.tokens), ?_, halong, ?_⟩
      · intro later hlater
        rw [List.eq_of_mem_replicate hlater, htokens]
        exact lt_of_le_of_ne (sub_nonneg.mpr henough) (Ne.symm hleft)
      · rw [hrun, hgranted, htokens]
        linarith only [hsum, hmore]
  | _ => exact absurd (by simp [hpoint, CallPoint.loaded]) hcall

end TokenThreads

end XNetty
