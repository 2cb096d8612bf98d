import Mathlib.Tactic

/-!
# Incremental decoders

A decoder looks at the front of its buffered input and either asks for more,
consumes a message, or gives up on what is buffered. Its verdict never changes
when more input arrives behind a message it has already recognised. From that one
law the output of a decoder does not depend on how its input is cut into pieces,
as long as nothing buffered behind a refused message is thrown away.

## Main definitions

* `Decoder` — one attempt at the front of the buffer, with its stability law.
* `Decoder.drain` — repeat the attempt until it asks for more or gives up.
* `Decoder.feedAll` — drain after every arriving piece, keeping the rest.
* `Decoder.Passes` — input that is decoded whole, whatever comes behind it.
-/

namespace Incremental

variable {α σ ω : Type*}

/-- The outcome of one attempt on the buffered input. -/
inductive Verdict (σ ω : Type*) where
  /-- No complete message is buffered. -/
  | more
  /-- The first `n` items are a message; decoding continues behind them. -/
  | done (n : ℕ) (next : σ) (out : List ω)
  /-- The first `n` items end decoding of this buffer; what follows is dropped. -/
  | halt (n : ℕ) (next : σ) (out : List ω)

/-- One attempt at the front of a buffer, with the laws that make it incremental. -/
structure Decoder (α σ ω : Type*) where
  parse : σ → List α → Verdict σ ω
  parse_nil : ∀ s, parse s [] = .more
  done_bounds : ∀ {s xs n s' out}, parse s xs = .done n s' out → 0 < n ∧ n ≤ xs.length
  halt_bound : ∀ {s xs n s' out}, parse s xs = .halt n s' out → n ≤ xs.length
  stable : ∀ {s xs} (ys : List α), parse s xs ≠ .more → parse s (xs ++ ys) = parse s xs

/-- What is left after decoding a buffer: the state, the messages in order, the
items kept for the next piece, and the items thrown away. -/
@[ext] structure Drained (α σ ω : Type*) where
  state : σ
  out : List ω
  rest : List α
  dropped : List α

namespace Decoder

variable (d : Decoder α σ ω)

/-- Decode messages from the front of the buffer until none is complete. -/
def drain (s : σ) (xs : List α) : Drained α σ ω :=
  match _h : d.parse s xs with
  | .more => ⟨s, [], xs, []⟩
  | .halt n s' out => ⟨s', out, [], xs.drop n⟩
  | .done n s' out =>
    let r := drain s' (xs.drop n)
    { r with out := out ++ r.out }
termination_by xs.length
decreasing_by
  have := d.done_bounds _h
  simp only [List.length_drop]
  omega

/-- Decode after every arriving piece; `rest` is what earlier pieces left behind. -/
def feedAll (s : σ) (rest : List α) : List (List α) → Drained α σ ω
  | [] => ⟨s, [], rest, []⟩
  | c :: cs =>
    let r := d.drain s (rest ++ c)
    let t := feedAll r.state r.rest cs
    ⟨t.state, r.out ++ t.out, t.rest, r.dropped ++ t.dropped⟩

variable {d}

theorem drain_of_more {s : σ} {xs : List α} (h : d.parse s xs = .more) :
    d.drain s xs = ⟨s, [], xs, []⟩ := by
  rw [drain]
  split <;> simp_all

theorem drain_of_halt {s s' : σ} {xs : List α} {n : ℕ} {out : List ω}
    (h : d.parse s xs = .halt n s' out) : d.drain s xs = ⟨s', out, [], xs.drop n⟩ := by
  rw [drain]
  split <;> simp_all

theorem drain_of_done {s s' : σ} {xs : List α} {n : ℕ} {out : List ω}
    (h : d.parse s xs = .done n s' out) :
    d.drain s xs =
      { d.drain s' (xs.drop n) with out := out ++ (d.drain s' (xs.drop n)).out } := by
  rw [drain]
  split <;> simp_all

@[simp] theorem drain_nil (s : σ) : d.drain s [] = ⟨s, [], [], []⟩ :=
  drain_of_more (d.parse_nil s)

/-- A whole message in front of the buffer is decoded before what follows it. -/
theorem drain_message {s s' : σ} {m : List α} {out : List ω}
    (h : d.parse s m = .done m.length s' out) (ys : List α) :
    d.drain s (m ++ ys) = { d.drain s' ys with out := out ++ (d.drain s' ys).out } := by
  have hm : d.parse s (m ++ ys) = .done m.length s' out :=
    (d.stable ys (by simp [h])).trans h
  rw [drain_of_done hm, List.drop_left]

/-- Draining stops only where the decoder asks for more. -/
theorem parse_drain_rest (s : σ) (xs : List α) :
    d.parse (d.drain s xs).state (d.drain s xs).rest = .more := by
  induction hn : xs.length using Nat.strong_induction_on generalizing s xs with
  | _ n ih =>
    cases hp : d.parse s xs with
    | more => rw [drain_of_more hp]; exact hp
    | halt k s' out => rw [drain_of_halt hp]; exact d.parse_nil s'
    | done k s' out =>
      have hk := d.done_bounds hp
      rw [drain_of_done hp]
      exact ih (xs.drop k).length (by simp only [List.length_drop]; omega) s' _ rfl

/-- What is kept is an end of the buffer. -/
theorem drain_rest_suffix (s : σ) (xs : List α) : (d.drain s xs).rest <:+ xs := by
  induction hn : xs.length using Nat.strong_induction_on generalizing s xs with
  | _ n ih =>
    cases hp : d.parse s xs with
    | more => rw [drain_of_more hp]
    | halt k s' out => rw [drain_of_halt hp]; exact List.nil_suffix
    | done k s' out =>
      have hk := d.done_bounds hp
      rw [drain_of_done hp]
      exact (ih (xs.drop k).length (by simp only [List.length_drop]; omega) s' _ rfl).trans
        (List.drop_suffix k xs)

/-! ### Giving up -/

/-- The decoder gives up somewhere in the buffer. -/
inductive Halts (d : Decoder α σ ω) : σ → List α → Prop
  | here {s xs n s' out} : d.parse s xs = .halt n s' out → Halts d s xs
  | later {s xs n s' out} : d.parse s xs = .done n s' out → Halts d s' (xs.drop n) → Halts d s xs

/-- A buffer in which the decoder gives up: what arrives behind it is thrown away. -/
theorem drain_append_of_halts {s : σ} {xs : List α} (h : d.Halts s xs) (ys : List α) :
    d.drain s (xs ++ ys) =
      { d.drain s xs with dropped := (d.drain s xs).dropped ++ ys } := by
  induction h with
  | here hp =>
    have hpy := (d.stable ys (by simp [hp])).trans hp
    rw [drain_of_halt hp, drain_of_halt hpy, List.drop_append_of_le_length (d.halt_bound hp)]
  | later hp _ ih =>
    have hpy := (d.stable ys (by simp [hp])).trans hp
    rw [drain_of_done hp, drain_of_done hpy,
      List.drop_append_of_le_length (d.done_bounds hp).2, ih]

theorem not_halts_of_more {s : σ} {xs : List α} (h : d.parse s xs = .more) : ¬ d.Halts s xs := by
  rintro (hp | ⟨hp, -⟩)
  · cases h.symm.trans hp
  · cases h.symm.trans hp

theorem Halts.append {s : σ} {xs : List α} (h : d.Halts s xs) (ys : List α) :
    d.Halts s (xs ++ ys) := by
  induction h with
  | here hp => exact .here ((d.stable ys (by simp [hp])).trans hp)
  | later hp _ ih =>
    refine .later ((d.stable ys (by simp [hp])).trans hp) ?_
    rwa [List.drop_append_of_le_length (d.done_bounds hp).2]

/-- Nothing is kept of a buffer in which the decoder gives up. -/
theorem Halts.rest {s : σ} {xs : List α} (h : d.Halts s xs) : (d.drain s xs).rest = [] := by
  induction h with
  | here hp => rw [drain_of_halt hp]
  | later hp _ ih => rwa [drain_of_done hp]

/-- A buffer in which the decoder does not give up: its rest is carried over. -/
theorem drain_append_of_not_halts {s : σ} {xs : List α} (h : ¬ d.Halts s xs) :
    (d.drain s xs).dropped = [] ∧ ∀ ys,
    d.drain s (xs ++ ys) =
      { d.drain (d.drain s xs).state ((d.drain s xs).rest ++ ys) with
        out := (d.drain s xs).out ++
          (d.drain (d.drain s xs).state ((d.drain s xs).rest ++ ys)).out } := by
  induction hn : xs.length using Nat.strong_induction_on generalizing s xs with
  | _ n ih =>
    cases hp : d.parse s xs with
    | more => rw [drain_of_more hp]; simp
    | halt k s' out => exact absurd (.here hp) h
    | done k s' out =>
      have hk := d.done_bounds hp
      obtain ⟨hd, he⟩ := ih (xs.drop k).length (by simp only [List.length_drop]; omega)
        (fun hlater => h (.later hp hlater)) rfl
      rw [drain_of_done hp]
      refine ⟨hd, ?_⟩
      intro ys
      have hpy : d.parse s (xs ++ ys) = .done k s' out := (d.stable ys (by simp [hp])).trans hp
      rw [drain_of_done hpy, List.drop_append_of_le_length hk.2, he ys]
      simp [List.append_assoc]

/-- If the decoder has not given up, it will where it does with what it has kept. -/
theorem halts_append {s : σ} {xs ys : List α} (h : ¬ d.Halts s xs)
    (hlater : d.Halts (d.drain s xs).state ((d.drain s xs).rest ++ ys)) :
    d.Halts s (xs ++ ys) := by
  induction hn : xs.length using Nat.strong_induction_on generalizing s xs with
  | _ n ih =>
    cases hp : d.parse s xs with
    | more => rwa [drain_of_more hp] at hlater
    | halt k s' out => exact absurd (.here hp) h
    | done k s' out =>
      have hk := d.done_bounds hp
      have hpy : d.parse s (xs ++ ys) = .done k s' out := (d.stable ys (by simp [hp])).trans hp
      rw [drain_of_done hp] at hlater
      refine .later hpy ?_
      rw [List.drop_append_of_le_length hk.2]
      exact ih (xs.drop k).length (by simp only [List.length_drop]; omega)
        (fun hrest => h (.later hp hrest)) hlater rfl

/-- What arrives later changes nothing that has been given out. -/
theorem drain_out_prefix (s : σ) (xs ys : List α) :
    (d.drain s xs).out <+: (d.drain s (xs ++ ys)).out := by
  by_cases h : d.Halts s xs
  · rw [drain_append_of_halts h]
  · rw [(drain_append_of_not_halts h).2]
    exact List.prefix_append _ _

/-- Draining in two pieces, when some continuation shows that the first one drops nothing:
its rest is carried over, whatever comes behind it. -/
theorem drain_append {s : σ} {xs zs : List α} (hzs : zs ≠ [])
    (h : (d.drain s (xs ++ zs)).dropped = []) :
    (d.drain s xs).dropped = [] ∧ ∀ ys,
    d.drain s (xs ++ ys) =
      { d.drain (d.drain s xs).state ((d.drain s xs).rest ++ ys) with
        out := (d.drain s xs).out ++
          (d.drain (d.drain s xs).state ((d.drain s xs).rest ++ ys)).out } := by
  apply drain_append_of_not_halts
  intro hhalts
  rw [drain_append_of_halts hhalts] at h
  exact hzs (List.append_eq_nil_iff.mp h).2

/-- **Decoding does not depend on the cutting.** Feeding non-empty pieces one by one
gives what decoding their concatenation gives, unless that drops something. -/
theorem feedAll_eq_drain {s : σ} {rest : List α} {cs : List (List α)}
    (hcs : ∀ c ∈ cs, c ≠ []) (hrest : d.parse s rest = .more)
    (h : (d.drain s (rest ++ cs.flatten)).dropped = []) :
    d.feedAll s rest cs = d.drain s (rest ++ cs.flatten) := by
  induction cs generalizing s rest with
  | nil => simp [feedAll, drain_of_more hrest]
  | cons c cs ih =>
    have hcs' : ∀ c ∈ cs, c ≠ [] := fun x hx => hcs x (List.mem_cons_of_mem _ hx)
    simp only [List.flatten_cons, ← List.append_assoc] at h ⊢
    cases cs with
    | nil => simp [feedAll]
    | cons c' cs' =>
      have hne : (c' :: cs').flatten ≠ [] := by
        have := hcs' c' (by simp)
        simp [this]
      obtain ⟨hd, he⟩ := drain_append hne h
      have hlater : (d.drain (d.drain s (rest ++ c)).state
          ((d.drain s (rest ++ c)).rest ++ (c' :: cs').flatten)).dropped = [] := by
        rw [he] at h
        exact h
      rw [feedAll, ih hcs' (parse_drain_rest _ _) hlater, he, hd]
      simp

/-- Whether anything is given out does not depend on the state. -/
def Mute (d : Decoder α σ ω) : Prop :=
  ∀ s s' xs, (d.drain s xs).out = [] → (d.drain s' xs).out = []

/-- Items of which no end gives anything give nothing, however they are cut. -/
theorem feedAll_out_of_silent (hmute : d.Mute) {s : σ} {rest : List α} {cs : List (List α)}
    (h : ∀ xs, xs <:+ rest ++ cs.flatten → (d.drain s xs).out = []) :
    (d.feedAll s rest cs).out = [] := by
  induction cs generalizing s rest with
  | nil => rfl
  | cons c cs ih =>
    rw [List.flatten_cons, ← List.append_assoc] at h
    have hfirst := drain_out_prefix (d := d) s (rest ++ c) cs.flatten
    rw [h _ (List.suffix_refl _), List.prefix_nil] at hfirst
    rw [feedAll, hfirst, List.nil_append]
    apply ih
    intro xs hxs
    refine hmute s _ xs (h xs (hxs.trans ?_))
    obtain ⟨front, hfront⟩ := drain_rest_suffix (d := d) s (rest ++ c)
    exact ⟨front, by rw [← List.append_assoc, hfront]⟩

/-- **When the cutting does not matter.** Every cutting of the items gives what the whole gives
if and only if, wherever behind the point at which the decoder gives up one starts again, nothing
is given out. -/
theorem feedAll_out_iff (hmute : d.Mute) (s : σ) (xs : List α) :
    (∀ cs, (∀ c ∈ cs, c ≠ []) → cs.flatten = xs →
      (d.feedAll s [] cs).out = (d.drain s xs).out) ↔
    ∀ before behind, before ++ behind = xs → d.Halts s before → (d.drain s behind).out = [] := by
  constructor
  · rintro h before behind rfl hhalts
    have hbefore : before ≠ [] := by
      rintro rfl
      exact not_halts_of_more (d.parse_nil s) hhalts
    by_cases hbehind : behind = []
    · rw [hbehind, drain_nil]
    have hcut := h [before, behind] (by simp [hbefore, hbehind]) (by simp)
    rw [drain_append_of_halts hhalts] at hcut
    simp only [feedAll, List.nil_append, hhalts.rest, List.append_nil] at hcut
    exact hmute _ s behind (List.append_right_eq_self.mp hcut)
  · intro h cs hcs hflat
    subst hflat
    suffices hrest : ∀ rest, d.parse s rest = .more →
        (∀ before behind, before ++ behind = rest ++ cs.flatten → d.Halts s before →
          (d.drain s behind).out = []) →
        (d.feedAll s rest cs).out = (d.drain s (rest ++ cs.flatten)).out from
      hrest [] (d.parse_nil s) h
    clear h
    induction cs generalizing s with
    | nil =>
      intro rest hrest _
      rw [feedAll, List.flatten_nil, List.append_nil, drain_of_more hrest]
    | cons c cs ih =>
      intro rest hrest h
      have hcs' : ∀ c ∈ cs, c ≠ [] := fun x hx => hcs x (List.mem_cons_of_mem _ hx)
      rw [List.flatten_cons, ← List.append_assoc] at h ⊢
      rw [feedAll]
      by_cases hhalts : d.Halts s (rest ++ c)
      · -- behind the end of this piece everything is silent
        rw [drain_append_of_halts hhalts, hhalts.rest]
        have hsilent : (d.feedAll (d.drain s (rest ++ c)).state [] cs).out = [] := by
          refine feedAll_out_of_silent hmute fun xs hxs => hmute s _ xs ?_
          obtain ⟨front, hfront⟩ := hxs
          refine h (rest ++ c ++ front) xs ?_ (hhalts.append front)
          rw [List.append_assoc _ front, hfront, List.nil_append]
        rw [hsilent, List.append_nil]
      · have happend := (drain_append_of_not_halts hhalts).2
        rw [happend, ih (d.drain s (rest ++ c)).state hcs' _ (parse_drain_rest _ _)]
        intro before behind hcut hbefore
        have hmore := parse_drain_rest (d := d) s (rest ++ c)
        rcases List.append_eq_append_iff.mp hcut with ⟨zs, hzs, -⟩ | ⟨zs, rfl, hzs⟩
        · -- the decoder does not give up in what it has kept
          exact absurd (hzs ▸ hbefore.append zs) (not_halts_of_more hmore)
        · exact hmute s _ behind
            (h (rest ++ c ++ zs) behind (by rw [List.append_assoc _ zs, hzs])
              (halts_append hhalts hbefore))

/-! ### Input that is taken whole -/

/-- The items are messages, all of which are decoded before what comes behind them. -/
def Passes (d : Decoder α σ ω) (s : σ) (xs : List α) (next : σ) (out : List ω) : Prop :=
  ∀ ys, d.drain s (xs ++ ys) = { d.drain next ys with out := out ++ (d.drain next ys).out }

theorem Passes.nil (s : σ) : d.Passes s [] s [] := fun _ => rfl

theorem Passes.message {s s' : σ} {m : List α} {out : List ω}
    (h : d.parse s m = .done m.length s' out) : d.Passes s m s' out := drain_message h

theorem Passes.append {s next last : σ} {xs ys : List α} {out out' : List ω}
    (hxs : d.Passes s xs next out) (hys : d.Passes next ys last out') :
    d.Passes s (xs ++ ys) last (out ++ out') := by
  intro zs
  rw [List.append_assoc, hxs, hys, List.append_assoc]

theorem Passes.drain_eq {s next : σ} {xs : List α} {out : List ω} (h : d.Passes s xs next out) :
    d.drain s xs = ⟨next, out, [], []⟩ := by
  simpa using h []

/-- What is left of the items behind a piece in front of them. -/
theorem Passes.split {s next : σ} {xs zs : List α} {out : List ω} (hzs : zs ≠ [])
    (h : d.Passes s (xs ++ zs) next out) : ∃ out', out = (d.drain s xs).out ++ out' ∧
      d.Passes (d.drain s xs).state ((d.drain s xs).rest ++ zs) next out' := by
  have hdropped : (d.drain s (xs ++ zs)).dropped = [] := by rw [h.drain_eq]
  have happend := (drain_append hzs hdropped).2
  have hout := happend zs
  rw [h.drain_eq, Drained.mk.injEq] at hout
  refine ⟨_, hout.2.1, ?_⟩
  intro ys
  have hys := happend (zs ++ ys)
  rw [← List.append_assoc, h ys, ← List.append_assoc, Drained.mk.injEq] at hys
  obtain ⟨hstate, hbehind, hrest, hdrop⟩ := hys
  rw [hout.2.1, List.append_assoc] at hbehind
  exact Drained.ext hstate.symm (List.append_cancel_left hbehind).symm hrest.symm hdrop.symm

/-- **What is taken whole is given out first**, however it and what comes behind it are cut. -/
theorem Passes.feedAll {s next : σ} {rest xs later : List α} {out : List ω}
    {cs : List (List α)} (h : d.Passes s xs next out) (hcs : ∀ c ∈ cs, c ≠ [])
    (hrest : d.parse s rest = .more) (hcut : rest ++ cs.flatten = xs ++ later) :
    ∃ behind, (d.feedAll s rest cs).out = out ++ behind ∧ (later = [] → behind = []) := by
  induction cs generalizing s rest xs out with
  | nil =>
    have hdrain := h later
    rw [← hcut, List.flatten_nil, List.append_nil, drain_of_more hrest,
      Drained.mk.injEq] at hdrain
    obtain ⟨hout, -⟩ := List.append_eq_nil_iff.mp hdrain.2.1.symm
    exact ⟨[], by rw [hout]; rfl, fun _ => rfl⟩
  | cons c cs ih =>
    obtain ⟨hc, hcs⟩ := List.forall_mem_cons.mp hcs
    rw [List.flatten_cons, ← List.append_assoc] at hcut
    have hcases : (∃ ys, rest ++ c = xs ++ ys ∧ later = ys ++ cs.flatten) ∨
        ∃ zs, zs ≠ [] ∧ xs = rest ++ c ++ zs ∧ cs.flatten = zs ++ later := by
      rcases List.append_eq_append_iff.mp hcut with ⟨zs, hxs, hzs⟩ | hys
      · by_cases hnil : zs = []
        · subst hnil
          rw [List.append_nil] at hxs
          exact .inl ⟨[], by rw [hxs, List.append_nil], hzs.symm⟩
        · exact .inr ⟨zs, hnil, hxs, hzs⟩
      · exact .inl hys
    rcases hcases with ⟨ys, hys, rfl⟩ | ⟨zs, hne, rfl, hzs⟩
    · -- the first piece reaches to the end of the items
      rw [Decoder.feedAll, hys, h ys]
      refine ⟨_, List.append_assoc _ _ _, ?_⟩
      intro hlater
      obtain ⟨rfl, hnone⟩ := List.append_eq_nil_iff.mp hlater
      obtain rfl : cs = [] := List.eq_nil_iff_forall_not_mem.mpr fun c hc =>
        hcs c hc (List.flatten_eq_nil_iff.mp hnone c hc)
      simp [Decoder.feedAll]
    · obtain ⟨out', rfl, hbeyond⟩ := h.split hne
      obtain ⟨behind, hbehind, hend⟩ := ih hbeyond hcs (parse_drain_rest _ _)
        (by rw [hzs, List.append_assoc])
      exact ⟨behind, by rw [Decoder.feedAll, hbehind, List.append_assoc], hend⟩

end Decoder

end Incremental
