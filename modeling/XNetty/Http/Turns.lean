import XNetty.Http.Codec

/-!
# The turns of the codec's loop

A call of `channelRead` gives its bytes to the parser, and goes on behind a request that it has
passed on. The last time in a call decides what the codec keeps: the bytes themselves, if no
request ended in them, and nothing otherwise.

## Main definitions

* `HttpServerCodec.turn` — how one turn of the loop ends.
* `HttpServerCodec.lastExecuted` — what a call gives to the parser last.
* `HttpServerCodec.channelRead_last` — what a call keeps.
-/

namespace XNetty

namespace HttpServerCodec

/-- How a turn of the loop ends. -/
inductive TurnEnd where
  /-- Answered with 431. -/
  | headerTooLarge (req : HttpRequest)
  /-- No request ended. -/
  | unfinished (req : HttpRequest)
  /-- Answered with 413. -/
  | bodyTooLarge (req : HttpRequest)
  /-- A request of so many bytes is passed on. -/
  | passedOn (req : HttpRequest) (consumed : ℕ)

variable (codec : HttpServerCodec) (ll : Llhttp)

/-- One turn of the loop on `raw`, with `req` in the codec's state. -/
def turn (req : HttpRequest) (raw : Bytes) : TurnEnd :=
  let x := ll.execute raw
  let pctx := runCallbacks raw { req := req, maxHeaderSize := codec.maxHeaderSize } x.callbacks
  if pctx.headerTooLarge then .headerTooLarge pctx.req
  else if ¬ pctx.msgComplete then .unfinished pctx.req
  else
    let stop := x.errorPos.getD raw.length
    let consumed := if stop = 0 then raw.length else stop
    let request :=
      if pctx.headerOffsets ≠ [] ∨ pctx.headerEndOffset > 0 then
        pctx.req.setRawData raw (min consumed stop) pctx.headerOffsets pctx.headerEndOffset
      else pctx.req
    if codec.OverLimit request.ensureHeadersParsed.headers then .bodyTooLarge request
    else .passedOn request consumed

/-- What is left to do when a turn has ended. -/
def afterTurn (fuel : ℕ) (st : CodecState) (src : Source) (raw : Bytes) :
    TurnEnd → Option (CodecState × List Action)
  | .headerTooLarge req => some (⟨req, st.leftover.clear⟩, [.writeAndFlush headerTooLarge])
  | .unfinished req =>
    if st.leftover.readableBytes = 0 then
      (src.store raw st.leftover).map fun leftover => (⟨req, leftover⟩, [])
    else some (⟨req, st.leftover⟩, [])
  | .bodyTooLarge req =>
    some (⟨req.ensureHeadersParsed, st.leftover.clear⟩, noted req ++ [.writeAndFlush bodyTooLarge])
  | .passedOn req consumed =>
    let fired := noted req ++ [.fireRead (.request req.ensureHeadersParsed)]
    if consumed ≥ raw.length then some (⟨{}, st.leftover.clear⟩, fired)
    else
      (readLoop codec ll fuel ⟨{}, st.leftover.clear⟩ (src.advance consumed)
        (raw.drop consumed)).map fun r => (r.1, fired ++ r.2)

/-- **The loop, turn by turn.** -/
theorem readLoop_turn (fuel : ℕ) (st : CodecState) (src : Source) (raw : Bytes) :
    readLoop codec ll (fuel + 1) st src raw =
      afterTurn codec ll fuel st src raw (turn codec ll st.request raw) := by
  unfold readLoop turn
  extract_lets x pctx stop consumed request notes
  by_cases hlarge : pctx.headerTooLarge = true
  · simp only [if_pos hlarge, afterTurn]
  by_cases hmsg : pctx.msgComplete = true
  · have hmsg' : ¬ ¬ pctx.msgComplete = true := not_not_intro hmsg
    simp only [if_neg hlarge, if_neg hmsg']
    by_cases hover : codec.OverLimit request.ensureHeadersParsed.headers
    · rw [if_pos hover]
      exact if_pos hover
    · rw [if_neg hover]
      exact if_neg hover
  · simp only [if_neg hlarge, if_pos hmsg, afterTurn]

variable {codec ll} in
/-- **What one turn can do**: stop, with a rejection or silently, or pass on a request. -/
theorem readLoop_cases {fuel : ℕ} {st st' : CodecState} {src : Source} {raw : Bytes}
    {actions : List Action} (h : readLoop codec ll (fuel + 1) st src raw = some (st', actions)) :
    actions = [] ∨ actions = [.writeAndFlush headerTooLarge] ∨
    ∃ req, actions = noted req ++ [.writeAndFlush bodyTooLarge] ∨
      actions = noted req ++ [.fireRead (.request req.ensureHeadersParsed)] ∨
      ∃ st src raw later, readLoop codec ll fuel st src raw = some (st', later) ∧
        actions = noted req ++ [.fireRead (.request req.ensureHeadersParsed)] ++ later := by
  rw [readLoop_turn] at h
  cases hturn : turn codec ll st.request raw with
  | headerTooLarge req =>
    rw [hturn] at h
    exact .inr (.inl (Prod.mk.inj (Option.some.inj h)).2.symm)
  | unfinished req =>
    rw [hturn, afterTurn] at h
    refine .inl ?_
    split at h
    · obtain ⟨leftover, -, hresult⟩ := Option.map_eq_some_iff.mp h
      exact (Prod.mk.inj hresult).2.symm
    · exact (Prod.mk.inj (Option.some.inj h)).2.symm
  | bodyTooLarge req =>
    rw [hturn] at h
    exact .inr (.inr ⟨req, .inl (Prod.mk.inj (Option.some.inj h)).2.symm⟩)
  | passedOn req consumed =>
    rw [hturn, afterTurn] at h
    refine .inr (.inr ⟨req, .inr ?_⟩)
    split at h
    · exact .inl (Prod.mk.inj (Option.some.inj h)).2.symm
    · obtain ⟨⟨st'', later⟩, hlater, hresult⟩ := Option.map_eq_some_iff.mp h
      obtain ⟨rfl, rfl⟩ := Prod.mk.inj hresult
      exact .inr ⟨_, _, _, later, hlater, rfl⟩

/-- The request object and the bytes of the last time that the loop calls the parser. -/
def lastTurn : ℕ → HttpRequest → Bytes → HttpRequest × Bytes
  | 0, req, raw => (req, raw)
  | fuel + 1, req, raw =>
    match turn codec ll req raw with
    | .passedOn _ consumed =>
      if consumed ≥ raw.length then (req, raw) else lastTurn fuel {} (raw.drop consumed)
    | _ => (req, raw)

/-- The request object and the bytes of the last time that a call on a buffer calls the parser;
the other times, a request was passed on. -/
def lastExecuted (st : CodecState) (buf : ByteBuf) : Option (HttpRequest × Bytes) :=
  if buf.readable = [] ∨ st.leftover.readable = [] ∧ startsRequest buf.readable = false then none
  else
    some (lastTurn codec ll ((st.leftover.readable ++ buf.readable).length + 1) st.request
      (st.leftover.readable ++ buf.readable))

/-! ## The last turn decides -/

variable {codec ll}

/-- A request that is passed on has bytes. -/
theorem turn_consumed {req req' : HttpRequest} {raw : Bytes} {n : ℕ}
    (h : turn codec ll req raw = .passedOn req' n) : raw = [] ∨ 0 < n := by
  unfold turn at h
  extract_lets x pctx stop consumed request at h
  split at h
  · cases h
  split at h
  · cases h
  split at h
  · cases h
  obtain ⟨-, rfl⟩ := TurnEnd.passedOn.inj h
  by_cases hraw : raw = []
  · exact .inl hraw
  · have hpos := List.length_pos_iff.mpr hraw
    refine .inr ?_
    simp only [consumed]
    split
    · exact hpos
    · omega

theorem responses_append (a b : List Action) :
    responses (a ++ b) = responses a ++ responses b := List.filterMap_append

theorem headerTooLarge_ne : headerTooLarge ≠ bodyTooLarge := by decide +kernel

/-- What the call leaves, for the end of its last turn. -/
def Leaves (r : Option (CodecState × List Action)) (raw : Bytes) : TurnEnd → Prop
  | .unfinished req => ∀ r' ∈ r, r'.1.request = req ∧ r'.1.leftover.readable = raw ∧
      headerTooLarge ∉ responses r'.2
  | .headerTooLarge _ => ∃ r' ∈ r, r'.1.leftover.readable = [] ∧ headerTooLarge ∈ responses r'.2
  | _ => ∃ r' ∈ r, r'.1.leftover.readable = [] ∧ headerTooLarge ∉ responses r'.2

/-- Reading from `src`, the storage being as in `leftover`, gives the bytes
`raw`. -/
def Source.Backs (leftover : ByteBuf) (raw : Bytes) : Source → Prop
  | .caller => True
  | .own offset => raw = (leftover.data.drop offset).take raw.length

theorem Source.backs_own (b : ByteBuf) : (Source.own b.readerIndex).Backs b b.readable := by
  unfold Backs
  rw [ByteBuf.length_readable, ByteBuf.readable, List.drop_take]
  rfl

theorem Source.store_readable {src : Source} {leftover leftover' : ByteBuf} {raw : Bytes}
    (hback : src.Backs leftover raw) (hempty : leftover.readable = [])
    (h : src.store raw leftover = some leftover') : leftover'.readable = raw := by
  cases src with
  | caller =>
    obtain rfl := Option.some.inj h
    rw [ByteBuf.readable_writeBytes, hempty, List.nil_append]
  | own offset =>
    simp only [store, ByteBuf.writeFromSelf] at h
    split at h
    · obtain rfl := Option.some.inj h
      rw [ByteBuf.readable_copyIn, hempty, List.nil_append]
      exact Eq.symm hback
    · cases h

theorem Source.Backs.advance {src : Source} {leftover : ByteBuf} {raw : Bytes}
    (hback : src.Backs leftover raw) (n : ℕ) :
    (src.advance n).Backs leftover.clear (raw.drop n) := by
  cases src with
  | caller => trivial
  | own offset =>
    have hdata : raw = (leftover.data.drop offset).take raw.length := hback
    simp only [Source.advance, Backs, ByteBuf.data_clear]
    conv_lhs => rw [hdata]
    rw [List.drop_take, List.drop_drop, List.length_drop]

/-- Requests that have been passed on before change nothing. -/
theorem Leaves.map {r : Option (CodecState × List Action)} {raw : Bytes} {e : TurnEnd}
    {fired : List Action} (hfired : responses fired = []) (h : Leaves r raw e) :
    Leaves (r.map fun r => (r.1, fired ++ r.2)) raw e := by
  have hresponses (later : List Action) : responses (fired ++ later) = responses later := by
    rw [responses_append, hfired, List.nil_append]
  cases e with
  | unfinished req =>
    intro r' hr'
    obtain ⟨r, hr, rfl⟩ := Option.map_eq_some_iff.mp hr'
    simpa only [hresponses] using h r hr
  | _ =>
    obtain ⟨r', hr', h⟩ := h
    refine ⟨_, Option.map_eq_some_iff.mpr ⟨r', hr', rfl⟩, ?_⟩
    simpa only [hresponses] using h

/-- **The loop leaves what its last turn does.** -/
theorem readLoop_last {fuel : ℕ} {st : CodecState} {src : Source} {raw : Bytes}
    (hfuel : raw.length < fuel) (hne : raw ≠ []) (hback : src.Backs st.leftover raw)
    (hheld : st.leftover.readable = [] ∨ st.leftover.readable = raw) :
    Leaves (readLoop codec ll fuel st src raw) (lastTurn codec ll fuel st.request raw).2
      (turn codec ll (lastTurn codec ll fuel st.request raw).1
        (lastTurn codec ll fuel st.request raw).2) := by
  induction fuel generalizing st src raw with
  | zero => omega
  | succ fuel ih =>
    rw [readLoop_turn, lastTurn]
    cases hturn : turn codec ll st.request raw with
    | headerTooLarge req =>
      simp only [hturn, afterTurn]
      exact ⟨_, rfl, ByteBuf.readable_clear _, List.mem_singleton_self _⟩
    | unfinished req =>
      simp only [hturn, afterTurn]
      intro r hr
      by_cases hzero : st.leftover.readableBytes = 0
      · rw [if_pos hzero] at hr
        obtain ⟨leftover, hstore, rfl⟩ := Option.map_eq_some_iff.mp hr
        have hempty := (ByteBuf.readable_eq_nil_iff _).mpr hzero
        exact ⟨rfl, Source.store_readable hback hempty hstore, by simp [responses]⟩
      · rw [if_neg hzero] at hr
        obtain rfl := Option.some.inj hr
        have hsome := mt (ByteBuf.readable_eq_nil_iff _).mp hzero
        exact ⟨rfl, hheld.resolve_left hsome, by simp [responses]⟩
    | bodyTooLarge req =>
      simp only [hturn, afterTurn]
      exact ⟨_, rfl, ByteBuf.readable_clear _, by simp [responses, noted, headerTooLarge_ne]⟩
    | passedOn req n =>
      simp only [afterTurn]
      by_cases hall : n ≥ raw.length
      · simp only [if_pos hall, hturn]
        exact ⟨_, rfl, ByteBuf.readable_clear _, by simp [responses, noted]⟩
      · have hn := (turn_consumed hturn).resolve_left hne
        rw [if_neg hall, if_neg hall]
        have hlater : (raw.drop n).length < fuel := by
          rw [List.length_drop]
          omega
        have hmore : raw.drop n ≠ [] := fun hnil => hall (List.drop_eq_nil_iff.mp hnil)
        have hempty : st.leftover.clear.readable = [] := ByteBuf.readable_clear _
        have hrest := @ih ⟨{}, st.leftover.clear⟩ _ _ hlater hmore (hback.advance n) (.inl hempty)
        exact hrest.map (by simp [responses, noted])

theorem lastTurn_ne_nil (fuel : ℕ) (req : HttpRequest) {raw : Bytes} (h : raw ≠ []) :
    (lastTurn codec ll fuel req raw).2 ≠ [] := by
  induction fuel generalizing req raw with
  | zero => exact h
  | succ fuel ih =>
    unfold lastTurn
    split
    · split
      · exact h
      next hmore => exact ih {} fun hnil => hmore (List.drop_eq_nil_iff.mp hnil)
    · exact h

/-- The parser is never given nothing. -/
theorem lastExecuted_ne_nil {st : CodecState} {buf : ByteBuf} {a : HttpRequest × Bytes}
    (h : a ∈ lastExecuted codec ll st buf) : a.2 ≠ [] := by
  unfold lastExecuted at h
  split at h
  · cases h
  next hcond =>
    obtain rfl := Option.some.inj h
    exact lastTurn_ne_nil _ _ fun hnil => hcond (.inl (List.append_eq_nil_iff.mp hnil).2)

/-- **What a call keeps.** -/
theorem channelRead_last {st : CodecState} {buf : ByteBuf} {a : HttpRequest × Bytes}
    (h : lastExecuted codec ll st buf = some a) :
    Leaves (channelRead codec ll st (.buffer buf)) a.2 (turn codec ll a.1 a.2) := by
  unfold lastExecuted at h
  split at h
  · cases h
  next hcond =>
    obtain rfl := Option.some.inj h
    obtain ⟨hne, hidle⟩ := not_or.mp hcond
    by_cases hheld : st.leftover.readable = []
    · have hstart : startsRequest buf.readable = true := by
        simpa [hheld] using hidle
      rw [channelRead_of_idle hne hheld hstart]
      rw [hheld, List.nil_append]
      exact readLoop_last (Nat.lt_succ_self _) hne trivial (.inl hheld)
    · rw [channelRead_of_held hne hheld]
      have hback := Source.backs_own (st.leftover.writeBytes buf.readable)
      rw [ByteBuf.readerIndex_writeBytes, ByteBuf.readable_writeBytes] at hback
      exact readLoop_last (Nat.lt_succ_self _) (by simp [hheld]) hback
        (.inr (ByteBuf.readable_writeBytes _ _))

/-- A call that does not call the parser passes the buffer on, and changes nothing. -/
theorem channelRead_unparsed {st : CodecState} {buf : ByteBuf}
    (h : lastExecuted codec ll st buf = none) :
    channelRead codec ll st (.buffer buf) = some (st, [.fireRead (.buffer buf)]) := by
  unfold lastExecuted at h
  split at h
  next hcond =>
    rcases hcond with hnil | ⟨hidle, hstart⟩
    · rw [channelRead, if_pos ((ByteBuf.readable_eq_nil_iff _).mp hnil)]
    · exact channelRead_of_other hidle hstart
  · cases h

end HttpServerCodec

end XNetty
