import XNetty.Http.Turns
import XNetty.Http.Rejection

/-!
# What a peer makes the codec keep

The limits are tested when a header section or a message ends. The codec keeps the bytes of a
request that has not ended, however many they are.

## Main definitions

* `HttpServerCodec.Stalls` — an unfinished request has more than so many bytes.
* `HttpServerCodec.KeepsWithin` — the codec never keeps more than so many bytes.
* `HttpServerCodec.keepsWithin_iff` — that is so exactly when no request stalls.
-/

namespace XNetty

/-! ## The flags of the callbacks -/

/-- The contexts differ in their requests only. -/
def ParseCtx.SameButRequest (a b : ParseCtx) : Prop := b = { a with req := b.req }

theorem ParseCtx.SameButRequest.onCallback {a b : ParseCtx} (h : a.SameButRequest b) (raw : Bytes)
    (c : Callback) :
    (a.onCallback raw c).2 = (b.onCallback raw c).2 ∧
      (a.onCallback raw c).1.SameButRequest (b.onCallback raw c).1 := by
  rw [h]
  generalize b.req = r
  cases c with
  | url s => exact ⟨rfl, rfl⟩
  | headerField s => exact ⟨rfl, rfl⟩
  | headerValue s =>
    refine ⟨rfl, ?_⟩
    simp only [ParseCtx.onCallback, ParseCtx.onHv]
    split <;> rfl
  | headersComplete m major minor =>
    simp only [ParseCtx.onCallback, ParseCtx.onHc]
    split <;> exact ⟨rfl, rfl⟩
  | messageComplete => exact ⟨rfl, rfl⟩

theorem ParseCtx.SameButRequest.runCallbacks {a b : ParseCtx} (h : a.SameButRequest b)
    (raw : Bytes) (cs : List Callback) :
    (runCallbacks raw a cs).SameButRequest (runCallbacks raw b cs) := by
  induction cs generalizing a b with
  | nil => exact h
  | cons c cs ih =>
    obtain ⟨hpaused, hsame⟩ := h.onCallback raw c
    simp only [XNetty.runCallbacks, ← hpaused]
    split
    · exact hsame
    · exact ih hsame

theorem ParseCtx.SameButRequest.headerTooLarge {a b : ParseCtx} (h : a.SameButRequest b) :
    a.headerTooLarge = b.headerTooLarge := by rw [h]

namespace HttpServerCodec

open Incremental

variable {codec : HttpServerCodec} {ll : Llhttp}

/-- Whether a header section is found to be too large depends on the bytes only. -/
theorem headerTooLarge_eq (req : HttpRequest) (raw : Bytes) :
    (runCallbacks raw { req := req, maxHeaderSize := codec.maxHeaderSize }
      (ll.execute raw).callbacks).headerTooLarge = sectionTooLarge codec ll raw := by
  have hsame : ParseCtx.SameButRequest { req := req, maxHeaderSize := codec.maxHeaderSize }
      { req := {}, maxHeaderSize := codec.maxHeaderSize } := rfl
  exact (hsame.runCallbacks raw _).headerTooLarge

/-! ## The turns -/

/-- Bytes in which no message ends. -/
theorem turn_incomplete {raw : Bytes} (hmsg : .messageComplete ∉ (ll.execute raw).callbacks)
    (req : HttpRequest) :
    (sectionTooLarge codec ll raw = false ∧
        ∃ req', turn codec ll req raw = .unfinished req') ∨
      (sectionTooLarge codec ll raw = true ∧
        ∃ req', turn codec ll req raw = .headerTooLarge req') := by
  obtain ⟨hcomplete, -⟩ := runCallbacks_unfinished hmsg raw
    { req := req, maxHeaderSize := codec.maxHeaderSize }
  rw [← headerTooLarge_eq req raw]
  unfold turn
  simp only [hcomplete]
  split
  next hlarge => exact .inr ⟨hlarge, _, rfl⟩
  next hsmall => exact .inl ⟨by simpa using hsmall, _, rfl⟩

variable (hll : ll.Correct)
include hll

/-- A whole request in front. -/
theorem turn_complete {p : Bytes} (hp : ll.Complete p) {t : Parse}
    (ht : (ll.execute p).callbacks = t.callbacks) (hin : t.Within p) (req : HttpRequest)
    (s : Bytes) :
    turn codec ll req (p ++ s) =
      let req' := t.attach (p ++ s) p.length req
      if t.TooLarge codec.maxHeaderSize then
        .headerTooLarge (req.setUri (substr (p ++ s) t.url.offset t.url.len))
      else if codec.OverLimit req'.ensureHeadersParsed.headers then .bodyTooLarge req'
      else .passedOn req' p.length := by
  have hpos := hll.length_pos hp
  have hoffsets : headerEntries (t.headers ++ t.trailers) ≠ [] ∨ t.headerEnd > 0 :=
    .inr (headerEnd_pos hin)
  simp only [turn, hll.stable hp, ht]
  by_cases hlarge : t.TooLarge codec.maxHeaderSize
  · simp only [t.runCallbacks_tooLarge hlarge, if_pos hlarge, if_true]
  · simp only [t.runCallbacks_complete hlarge, hp.2, Option.getD_some, Bool.false_eq_true, if_false,
      not_true_eq_false, if_pos hoffsets, if_neg hpos.ne', min_self, if_neg hlarge]
    rfl

/-- A whole request in front is passed on, or ends the loop. -/
theorem turn_whole {p : Bytes} (hp : ll.Complete p) (req : HttpRequest) (s : Bytes) :
    (sectionTooLarge codec ll p = false ∧ ¬ codec.OverLimit (req.headers ++ ownHeaders ll p) ∧
      ∃ req', turn codec ll req (p ++ s) = .passedOn req' p.length) ∨
    (¬ (sectionTooLarge codec ll p = false ∧
        ¬ codec.OverLimit (req.headers ++ ownHeaders ll p)) ∧
      ∃ req', turn codec ll req (p ++ s) = .headerTooLarge req' ∨
        turn codec ll req (p ++ s) = .bodyTooLarge req') := by
  obtain ⟨t, ht, hin⟩ := hll.parses hp
  have hheaders : (t.attach (p ++ s) p.length req).ensureHeadersParsed.headers =
      req.headers ++ ownHeaders ll p := by
    rw [← ownHeaders_eq ht req, headers_attach, headers_attach, readHeaders_append hin s]
  have hlarge := @sectionTooLarge_iff codec ll p t ht
  have hturn := @turn_complete codec ll hll p hp t ht hin req s
  dsimp only at hturn
  rw [hheaders] at hturn
  by_cases htoo : t.TooLarge codec.maxHeaderSize
  · rw [if_pos htoo] at hturn
    refine .inr ⟨fun h => ?_, _, .inl hturn⟩
    rw [hlarge.mpr htoo] at h
    cases h.1
  rw [if_neg htoo] at hturn
  by_cases hover : codec.OverLimit (req.headers ++ ownHeaders ll p)
  · rw [if_pos hover] at hturn
    exact .inr ⟨fun h => h.2 hover, _, .inr hturn⟩
  · rw [if_neg hover] at hturn
    exact .inl ⟨by simpa using mt hlarge.mp htoo, hover, _, hturn⟩

/-! ## What is kept -/

omit hll in
variable (codec ll) in
/-- The requests are let through one after the other. Headers that a rejected request has left
behind come in front of those of the first. -/
def LetThrough : List (Bytes × Bytes) → List Bytes → Prop
  | _, [] => True
  | old, p :: ps =>
    (sectionTooLarge codec ll p = false ∧ ¬ codec.OverLimit (old ++ ownHeaders ll p)) ∧
      LetThrough [] ps

omit hll in
/-- A turn that passes nothing on is the last one. -/
theorem lastTurn_of_ne {fuel : ℕ} {req : HttpRequest} {raw : Bytes}
    (h : ∀ req' n, turn codec ll req raw ≠ .passedOn req' n) :
    lastTurn codec ll fuel req raw = (req, raw) := by
  cases fuel with
  | zero => rfl
  | succ fuel =>
    rw [lastTurn]
    split
    next hturn => exact absurd hturn (h _ _)
    next => rfl

/-- **The last turn** finds a request unfinished exactly when those in front of it are let through,
and its header section is not found to be too large. -/
theorem lastTurn_unfinished_iff {fuel : ℕ} {raw : Bytes} (hfuel : raw.length < fuel)
    (hne : raw ≠ []) (req : HttpRequest) :
    let a := lastTurn codec ll fuel req raw
    let d := hll.framing.decoder.drain () raw
    ((∃ req', turn codec ll a.1 a.2 = .unfinished req') ↔
      LetThrough codec ll req.headers d.out ∧ d.rest ≠ [] ∧
        sectionTooLarge codec ll d.rest = false) ∧
    ((∃ req', turn codec ll a.1 a.2 = .unfinished req') → a.2 = d.rest) := by
  induction fuel generalizing req raw with
  | zero => omega
  | succ fuel ih =>
    by_cases hmsg : .messageComplete ∈ (ll.execute raw).callbacks
    · obtain ⟨p, ⟨s, rfl⟩, hp⟩ := hll.reports hmsg
      have hpos := hll.length_pos hp
      rw [Framing.drain_cons (show hll.framing.IsMessage p from hp.requestSize)]
      dsimp only
      rcases @turn_whole codec ll hll p hp req s with
        ⟨hsmall, hfits, req', hturn⟩ | ⟨hstop, req', hturn⟩
      · by_cases hs : s = []
        · subst hs
          have hlast : lastTurn codec ll (fuel + 1) req (p ++ []) = (req, p ++ []) := by
            rw [lastTurn, hturn]
            simp
          rw [hlast, hturn, Decoder.drain_nil]
          simp
        · have hlast : lastTurn codec ll (fuel + 1) req (p ++ s) = lastTurn codec ll fuel {} s := by
            have hmore := List.length_pos_iff.mpr hs
            rw [lastTurn, hturn]
            dsimp only
            rw [if_neg (by rw [List.length_append]; omega), List.drop_left]
          rw [List.length_append] at hfuel
          rw [hlast, LetThrough]
          simpa [hsmall, hfits] using ih (by omega) hs {}
      · have hlast : lastTurn codec ll (fuel + 1) req (p ++ s) = (req, p ++ s) :=
          lastTurn_of_ne (by rcases hturn with h | h <;> simp [h])
        rw [hlast, LetThrough]
        rcases hturn with h | h <;> simp [h, hstop]
    · have hnone : hll.framing.size raw = none := if_neg hmsg
      rw [Framing.drain_of_none hnone]
      rcases @turn_incomplete codec ll raw hmsg req with
        ⟨hsmall, req', hturn⟩ | ⟨hlarge, req', hturn⟩
      · rw [lastTurn_of_ne (by simp [hturn])]
        exact ⟨by simp [hturn, LetThrough, hne, hsmall], fun _ => rfl⟩
      · rw [lastTurn_of_ne (by simp [hturn])]
        simp [hturn, hlarge]

omit hll in
theorem Leaves.readable_eq_nil {r : Option (CodecState × List Action)} {raw : Bytes} {e : TurnEnd}
    (h : Leaves r raw e) (hended : ∀ req, e ≠ .unfinished req) :
    ∀ r' ∈ r, r'.1.leftover.readable = [] := by
  intro r' hr'
  cases e with
  | unfinished req => exact absurd rfl (hended req)
  | _ =>
    obtain ⟨r'', hr'', hnil, -⟩ := h
    obtain rfl := Option.mem_unique hr' hr''
    exact hnil

variable (codec) in
/-- The bytes of a call are for the codec, the requests in front of them are let through, and
those behind them are of a request that has more than `L` bytes and has not ended. -/
def Stalls (L : ℕ) (st : CodecState) (buf : ByteBuf) : Prop :=
  let d := hll.framing.decoder.drain () (st.leftover.readable ++ buf.readable)
  buf.readable ≠ [] ∧ (st.leftover.readable ≠ [] ∨ startsRequest buf.readable = true) ∧
    LetThrough codec ll st.request.headers d.out ∧ sectionTooLarge codec ll d.rest = false ∧
    L < d.rest.length

/-- A part of a whole request of at most `L` bytes does not stall. -/
theorem not_stalls_of_part {L : ℕ} {st : CodecState} {buf : ByteBuf} {p : Bytes}
    (hp : (hll.framing.decoder.drain () (st.leftover.readable ++ buf.readable)).rest <+: p)
    (hlen : p.length ≤ L) : ¬ Stalls codec hll L st buf := by
  rintro ⟨-, -, -, -, hlong⟩
  have := hp.length_le
  omega

/-- **One call** leaves more than `L` bytes exactly when a request stalls. -/
theorem channelRead_keeps {L : ℕ} {st : CodecState} (hst : st.leftover.readable.length ≤ L)
    {buf : ByteBuf} {r : CodecState × List Action}
    (h : channelRead codec ll st (.buffer buf) = some r) :
    r.1.leftover.readable.length ≤ L ↔ ¬ Stalls codec hll L st buf := by
  by_cases hcond : buf.readable = [] ∨
      st.leftover.readable = [] ∧ startsRequest buf.readable = false
  · -- the buffer is passed on
    have hlast : lastExecuted codec ll st buf = none := if_pos hcond
    rw [channelRead_unparsed hlast] at h
    obtain rfl := Option.some.inj h
    refine iff_of_true hst fun hstalls => ?_
    obtain ⟨hne, hparsed, -⟩ := hstalls
    rcases hcond with hnil | ⟨hidle, hstart⟩
    · exact hne hnil
    · simp [hidle, hstart] at hparsed
  · have hlast : lastExecuted codec ll st buf = some _ := if_neg hcond
    have hleaves := channelRead_last hlast
    obtain ⟨hne, hparsed⟩ := not_or.mp hcond
    have hparsed' : st.leftover.readable ≠ [] ∨ startsRequest buf.readable = true := by
      by_contra hnot
      simp only [not_or, not_not, Bool.not_eq_true] at hnot
      exact hparsed hnot
    have hraw : st.leftover.readable ++ buf.readable ≠ [] := by simp [hne]
    obtain ⟨hiff, hrest⟩ := @lastTurn_unfinished_iff codec ll hll _ _ (Nat.lt_add_one _) hraw
      st.request
    generalize lastTurn codec ll _ st.request _ = a at hleaves hiff hrest
    by_cases hopen : ∃ req', turn codec ll a.1 a.2 = .unfinished req'
    · obtain ⟨hthrough, -, hsmall⟩ := hiff.mp hopen
      obtain ⟨req', hturn⟩ := hopen
      rw [hturn] at hleaves
      rw [(hleaves r h).2.1, hrest ⟨req', hturn⟩]
      simp [Stalls, hne, hparsed', hthrough, hsmall]
    · rw [hleaves.readable_eq_nil (fun req' hturn => hopen ⟨req', hturn⟩) r h]
      refine iff_of_true (Nat.zero_le L) fun hstalls => ?_
      obtain ⟨-, -, hthrough, hsmall, hlong⟩ := hstalls
      exact hopen (hiff.mpr ⟨hthrough, List.ne_nil_of_length_pos (by omega), hsmall⟩)

omit hll in
variable (codec ll) in
/-- **What is expected of the codec.** After each call it keeps at most `L` bytes. -/
def KeepsWithin (L : ℕ) (st : CodecState) : List ByteBuf → Prop
  | [] => True
  | buf :: bufs => ∀ r ∈ channelRead codec ll st (.buffer buf),
      r.1.leftover.readable.length ≤ L ∧ KeepsWithin L r.1 bufs

omit hll in
instance decidableKeepsWithin (L : ℕ) :
    (st : CodecState) → (bufs : List ByteBuf) → Decidable (KeepsWithin codec ll L st bufs)
  | _, [] => .isTrue trivial
  | st, buf :: bufs =>
    have (st' : CodecState) : Decidable (KeepsWithin codec ll L st' bufs) :=
      decidableKeepsWithin L st' bufs
    inferInstanceAs (Decidable (∀ r ∈ channelRead codec ll st (.buffer buf), _ ∧ _))

variable (codec) in
/-- No request stalls, until there is undefined behaviour. -/
def NeverStalls (L : ℕ) (st : CodecState) : List ByteBuf → Prop
  | [] => True
  | buf :: bufs => ∀ r ∈ channelRead codec ll st (.buffer buf),
      ¬ Stalls codec hll L st buf ∧ NeverStalls L r.1 bufs

theorem keepsWithin_iff_from {L : ℕ} {st : CodecState} (hst : st.leftover.readable.length ≤ L)
    (bufs : List ByteBuf) : KeepsWithin codec ll L st bufs ↔ NeverStalls codec hll L st bufs := by
  induction bufs generalizing st with
  | nil => exact Iff.rfl
  | cons buf bufs ih =>
    refine forall₂_congr fun r hr => ?_
    rw [← channelRead_keeps hll hst hr]
    exact and_congr_right fun hkept => ih hkept

omit hll in
/-- The limits, the size of a chunk, and a constant. -/
def room (codec : HttpServerCodec) (C K : ℕ) : ℕ := codec.maxHeaderSize + codec.maxBodySize + C + K

/-- **What the codec keeps is bounded** exactly when no request stalls. -/
theorem keepsWithin_iff (C K : ℕ) (bufs : List ByteBuf) :
    KeepsWithin codec ll (codec.room C K) .fresh bufs ↔
      NeverStalls codec hll (codec.room C K) .fresh bufs :=
  keepsWithin_iff_from hll (Nat.zero_le _) bufs

omit hll

/-- A request with a body of three bytes in two pieces. -/
theorem keepsWithin_postRequest :
    let codec : HttpServerCodec := { maxHeaderSize := 20, maxBodySize := 3 }
    let bufs : List ByteBuf :=
      [.copyOf (postRequest.text.take 30), .copyOf (postRequest.text.drop 30)]
    KeepsWithin codec (.ofRecordings postAndGet) (codec.room 30 0) .fresh bufs ∧
      NeverStalls codec (Llhttp.ofRecordings_correct postAndGet_sound) (codec.room 30 0) .fresh
        bufs := by
  intro codec bufs
  have hll := Llhttp.ofRecordings_correct postAndGet_sound
  have hkeeps : KeepsWithin codec (.ofRecordings postAndGet) (codec.room 30 0) .fresh bufs := by
    decide +kernel
  exact ⟨hkeeps, (keepsWithin_iff hll 30 0 bufs).mp hkeeps⟩

/-! ## Requests that never end -/

/-- Bytes in which neither a message nor a header section ends are kept. -/
theorem channelRead_open {st : CodecState} {buf : ByteBuf} (hne : buf.readable ≠ [])
    (hparsed : st.leftover.readable ≠ [] ∨ startsRequest buf.readable = true)
    (hmsg : .messageComplete ∉ (ll.execute (st.leftover.readable ++ buf.readable)).callbacks)
    (hsmall : sectionTooLarge codec ll (st.leftover.readable ++ buf.readable) = false) :
    ∃ r ∈ channelRead codec ll st (.buffer buf),
      r.1.leftover.readable = st.leftover.readable ++ buf.readable := by
  have hturn : ∃ req', turn codec ll st.request (st.leftover.readable ++ buf.readable) =
      .unfinished req' := by
    rcases @turn_incomplete codec ll _ hmsg st.request with h | h
    · exact h.2
    · rw [hsmall] at h
      cases h.1
  obtain ⟨req', hturn⟩ := hturn
  by_cases hidle : st.leftover.readable = []
  · rw [hidle, List.nil_append] at hturn ⊢
    rw [channelRead_of_idle hne hidle (hparsed.resolve_left (not_not_intro hidle)), readLoop_turn,
      hturn, afterTurn, if_pos ((ByteBuf.readable_eq_nil_iff _).mp hidle)]
    refine ⟨_, rfl, ?_⟩
    rw [ByteBuf.readable_writeBytes, hidle, List.nil_append]
  · have hheld : (st.leftover.writeBytes buf.readable).readableBytes ≠ 0 := by
      rw [ne_eq, ← ByteBuf.readable_eq_nil_iff, ByteBuf.readable_writeBytes]
      exact fun hnil => hne (List.append_eq_nil_iff.mp hnil).2
    rw [channelRead_of_held hne hidle, readLoop_turn, hturn, afterTurn, if_neg hheld]
    exact ⟨_, rfl, ByteBuf.readable_writeBytes _ _⟩

/-- **Everything is kept** of a header section that never ends. -/
theorem length_le_of_keepsWithin
    (hopen : ∀ raw, .messageComplete ∉ (ll.execute raw).callbacks ∧
      sectionTooLarge codec ll raw = false) {L : ℕ} {bufs : List ByteBuf} {st : CodecState}
    (hst : st.leftover.readable.length ≤ L) (hheld : st.leftover.readable ≠ [])
    (hbufs : ∀ b ∈ bufs, b.readable ≠ []) (h : KeepsWithin codec ll L st bufs) :
    st.leftover.readable.length + (bufs.map fun b => b.readable.length).sum ≤ L := by
  induction bufs generalizing st with
  | nil => exact hst
  | cons buf bufs ih =>
    obtain ⟨hne, hbufs⟩ := List.forall_mem_cons.mp hbufs
    obtain ⟨r, hr, hleft⟩ := channelRead_open hne (.inl hheld) (hopen _).1 (hopen _).2
    obtain ⟨hkept, hlater⟩ := h r hr
    have hrest := ih hkept (by simp [hleft, hne]) hbufs hlater
    rw [hleft, List.length_append] at hrest
    rw [List.map_cons, List.sum_cons]
    omega

/-- The parser library in the target of a request. -/
def targetLlhttp : Llhttp where
  execute w := ⟨if 4 < w.length then [.url ⟨4, w.length - 4⟩] else [], none⟩

theorem messageComplete_not_mem_target (raw : Bytes) :
    .messageComplete ∉ (targetLlhttp.execute raw).callbacks := by
  unfold targetLlhttp
  dsimp only
  split <;> simp

theorem targetLlhttp_correct : targetLlhttp.Correct where
  stable hp := absurd hp.1 (messageComplete_not_mem_target _)
  reports hmsg := absurd hmsg (messageComplete_not_mem_target _)
  parses hp := absurd hp.1 (messageComplete_not_mem_target _)
  early hp := absurd hp.1 (messageComplete_not_mem_target _)

/-- The front of a request, and then one byte of its target after the other. -/
def endlessTarget (n : ℕ) : List ByteBuf :=
  .copyOf (ascii "GET /") :: List.replicate n (.copyOf [97])

/-- **A request line that never ends** makes the codec keep more than any bound. -/
theorem not_keepsWithin_endless : targetLlhttp.Correct ∧
    ¬ ∃ K, ∀ codec : HttpServerCodec, 0 < codec.maxHeaderSize → 0 < codec.maxBodySize →
      ∀ (C : ℕ) (bufs : List ByteBuf), (∀ b ∈ bufs, b.readable.length ≤ C) →
        KeepsWithin codec targetLlhttp (codec.room C K) .fresh bufs := by
  refine ⟨targetLlhttp_correct, ?_⟩
  rintro ⟨K, hbounded⟩
  have hbufs : ∀ b ∈ endlessTarget (K + 8), b.readable ≠ [] ∧ b.readable.length ≤ 5 := by
    intro b hb
    rcases List.mem_cons.mp hb with rfl | hb
    · decide +kernel
    · rw [List.eq_of_mem_replicate hb]
      decide +kernel
  have hopen (raw : Bytes) : .messageComplete ∉ (targetLlhttp.execute raw).callbacks ∧
      sectionTooLarge ⟨1, 1⟩ targetLlhttp raw = false := by
    refine ⟨messageComplete_not_mem_target raw, ?_⟩
    unfold sectionTooLarge targetLlhttp
    dsimp only
    split <;> rfl
  have hkeeps := hbounded ⟨1, 1⟩ Nat.one_pos Nat.one_pos 5 _ fun b hb => (hbufs b hb).2
  -- the first buffer begins with a capital letter, and the others come behind it
  obtain ⟨r, hr, hleft⟩ := @channelRead_open ⟨1, 1⟩ targetLlhttp .fresh (.copyOf (ascii "GET /"))
    (by decide +kernel) (.inr (by decide +kernel)) (hopen _).1 (hopen _).2
  obtain ⟨hkept, hlater⟩ := hkeeps r hr
  have hlength := length_le_of_keepsWithin hopen hkept (by rw [hleft]; decide +kernel)
    (fun b hb => (hbufs b (List.mem_cons_of_mem _ hb)).1) hlater
  have hbyte : (ByteBuf.copyOf [97]).readable.length = 1 := by decide +kernel
  rw [List.map_replicate, List.sum_replicate, hbyte] at hlength
  simp only [room, smul_eq_mul] at hlength
  omega

end HttpServerCodec

end XNetty
