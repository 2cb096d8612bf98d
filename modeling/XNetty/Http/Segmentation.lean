import XNetty.Http.Codec

/-!
# Segmentation of requests

The requests that a connection delivers do not depend on how the stream is cut, as long as
the codec never copies a part of a request onto itself.

## Main definitions

* `RequestView` — what a request shows of its message.
* `HttpServerCodec.Overlaps` — some buffer makes the codec copy a part onto itself.
* `HttpServerCodec.readAll_segmentation` — the law.
-/

namespace XNetty

/-- What a delivered request shows of its message. -/
structure RequestView where
  method : HttpMethod
  version : HttpVersion
  uri : Bytes
  path : Bytes
  headers : List (Bytes × Bytes)
  deriving DecidableEq

def HttpRequest.view (r : HttpRequest) : RequestView :=
  ⟨r.method, r.version, r.uri, r.path, r.ensureHeadersParsed.headers⟩

/-- The requests among the messages passed on. -/
def firedRequests (actions : List Action) : List HttpRequest :=
  (firedMessages actions).filterMap fun
    | .request req => some req
    | _ => none

@[simp] theorem firedRequests_nil : firedRequests [] = [] := rfl

@[simp] theorem firedRequests_append (a b : List Action) :
    firedRequests (a ++ b) = firedRequests a ++ firedRequests b := by
  simp [firedRequests]

namespace HttpServerCodec

/-- A parsed request, passed on with what is noted about it. -/
theorem firedRequests_noted (req req' : HttpRequest) :
    firedRequests (noted req ++ [.fireRead (.request req')]) = [req'] := rfl

section request

variable {p : Bytes} {t : Parse}

/-- The request that whole-request bytes stand for. -/
def whole (t : Parse) (p : Bytes) : HttpRequest := (t.attach p p.length {}).ensureHeadersParsed

theorem readHeader_append {e : HeaderEntry}
    (he : e.offset + e.keyLen + 2 + e.valueLen ≤ p.length) (s : Bytes) :
    HttpRequest.readHeader (p ++ s) e = HttpRequest.readHeader p e := by
  unfold HttpRequest.readHeader
  rw [substr_append (by omega), substr_append (by omega)]

theorem headers_attach (raw : Bytes) (n : ℕ) (req : HttpRequest) :
    (t.attach raw n req).ensureHeadersParsed.headers =
      req.headers ++
        (headerEntries (t.headers ++ t.trailers)).map (HttpRequest.readHeader raw) := by
  rw [Parse.attach, HttpRequest.headers_ensureHeadersParsed_setRawData]
  unfold Parse.requestLine
  cases methodOf t.method <;> rfl

/-- Spans that lie in the request are read the same whatever follows it. -/
theorem readHeaders_append (hin : t.Within p) (s : Bytes) :
    (headerEntries (t.headers ++ t.trailers)).map (HttpRequest.readHeader (p ++ s)) =
      (headerEntries (t.headers ++ t.trailers)).map (HttpRequest.readHeader p) := by
  unfold headerEntries
  rw [List.map_map, List.map_map]
  refine List.map_congr_left fun h hh => readHeader_append ?_ s
  obtain ⟨hname, hvalue⟩ := hin.2.2 h hh
  unfold Span.stop at hname hvalue
  dsimp only
  omega

/-- **A request parsed late** shows what the same request parsed at once shows. -/
theorem view_attach (hin : t.Within p) {req : HttpRequest} (hheaders : req.headers = [])
    (hmethod : req.method = .unknown ∨ methodOf t.method = some req.method) (s : Bytes) :
    (t.attach (p ++ s) p.length req).ensureHeadersParsed.view = (whole t p).view := by
  have hurl : substr (p ++ s) t.url.offset t.url.len = substr p t.url.offset t.url.len :=
    substr_append hin.2.1 s
  unfold HttpRequest.view whole
  simp only [HttpRequest.ensureHeadersParsed_idem, headers_attach, readHeaders_append hin, hheaders]
  simp only [HttpRequest.method_ensureHeadersParsed, HttpRequest.version_ensureHeadersParsed,
    HttpRequest.uri_ensureHeadersParsed, HttpRequest.path_ensureHeadersParsed, Parse.attach,
    HttpRequest.method_setRawData, HttpRequest.version_setRawData, HttpRequest.uri_setRawData,
    HttpRequest.path_setRawData, Parse.requestLine, hurl]
  cases hm : methodOf t.method with
  | none =>
    obtain h | h := hmethod
    · simp [HttpRequest.setUri, HttpRequest.setVersion, h]
    · simp [hm] at h
  | some m => rfl

end request

open Incremental

variable {ll : Llhttp}

/-- What the request made of these bytes on a fresh connection shows. -/
def wholeView (ll : Llhttp) (p : Bytes) : RequestView :=
  let pctx := runCallbacks p { req := {} } (ll.execute p).callbacks
  (pctx.req.setRawData p p.length pctx.headerOffsets
    pctx.headerEndOffset).ensureHeadersParsed.view

theorem wholeView_eq {p : Bytes} {t : Parse} (ht : (ll.execute p).callbacks = t.callbacks) :
    wholeView ll p = (whole t p).view := by
  have hlarge : ¬ t.TooLarge 0 := fun h => absurd h.1 (lt_irrefl 0)
  have hrun := t.runCallbacks_complete hlarge p {}
  unfold wholeView
  rw [ht, hrun]
  rfl

/-! ## Requests under way -/

/-- A request object that attempts on a part `w` of a request have left behind. -/
def Pending (ll : Llhttp) (w : Bytes) (req : HttpRequest) : Prop :=
  ({} : HttpRequest).SameButLine req ∧
    (req.method = .unknown ∨ ∃ v, v <+: w ∧ ∃ m major minor,
      .headersComplete m major minor ∈ (ll.execute v).callbacks ∧ methodOf m = some req.method)

theorem pending_fresh (ll : Llhttp) (w : Bytes) : Pending ll w {} := ⟨rfl, .inl rfl⟩

theorem Pending.mono {w w' : Bytes} {req : HttpRequest} (h : Pending ll w req) (hw : w <+: w') :
    Pending ll w' req := by
  obtain ⟨hsame, hmethod | ⟨v, hv, hm⟩⟩ := h
  · exact ⟨hsame, .inl hmethod⟩
  · exact ⟨hsame, .inr ⟨v, hv.trans hw, hm⟩⟩

theorem Pending.headers {w : Bytes} {req : HttpRequest} (h : Pending ll w req) :
    req.headers = [] := by rw [h.1]

/-- One more attempt. -/
theorem Pending.attempt {w : Bytes} {req : HttpRequest} (h : Pending ll w req)
    (hw : .messageComplete ∉ (ll.execute w).callbacks) (maxHeaderSize : ℕ) :
    Pending ll w (runCallbacks w { req := req, maxHeaderSize := maxHeaderSize }
      (ll.execute w).callbacks).req := by
  obtain ⟨-, -, hsame, hmethod⟩ := runCallbacks_unfinished hw w
    { req := req, maxHeaderSize := maxHeaderSize }
  refine ⟨h.1.trans hsame, ?_⟩
  obtain hkept | ⟨m, major, minor, hm, hnew⟩ := hmethod
  · rw [hkept]
    exact h.2
  · exact .inr ⟨w, List.prefix_rfl, m, major, minor, hm, hnew⟩

theorem mem_headerCallbacks {hs : List (Span × Span)} {m major minor : ℕ} :
    .headersComplete m major minor ∉ headerCallbacks hs := by
  simp [headerCallbacks]

section complete

variable (hll : ll.Correct)
include hll

theorem requestSize_eq_none {raw : Bytes} :
    ll.requestSize raw = none ↔ .messageComplete ∉ (ll.execute raw).callbacks := by
  refine ⟨fun h hmsg => ?_, fun h => if_neg h⟩
  obtain ⟨p, ⟨s, rfl⟩, hp⟩ := hll.reports hmsg
  rw [hll.requestSize_append hp] at h
  cases h

/-- An attempt on a part sets the method of the whole, or none. -/
theorem Pending.method {w p s : Bytes} {t : Parse} {req : HttpRequest} (h : Pending ll w req)
    (hnone : ll.requestSize w = none) (hw : w <+: p ++ s) (hp : ll.Complete p)
    (ht : (ll.execute p).callbacks = t.callbacks) :
    req.method = .unknown ∨ methodOf t.method = some req.method := by
  obtain hmethod | ⟨v, hv, m, major, minor, hm, hreq⟩ := h.2
  · exact .inl hmethod
  · refine .inr ?_
    have hwp : w <+: p := by
      obtain h | ⟨y, rfl⟩ := List.prefix_or_prefix_of_prefix hw (List.prefix_append p s)
      · exact h
      · rw [hll.requestSize_append hp] at hnone
        cases hnone
    have hmem := hll.early hp (hv.trans hwp) hm
    rw [ht, Parse.callbacks] at hmem
    simp only [List.mem_cons, List.mem_append, mem_headerCallbacks, reduceCtorEq, false_or,
      or_false, List.not_mem_nil, Callback.headersComplete.injEq] at hmem
    rw [← hmem.1]
    exact hreq

end complete

/-! ## The loop cuts the stream into requests -/

/-- The codec without limits. -/
def unlimited : HttpServerCodec := {}

/-- What the loop does with a stream, `d` being its cutting into requests: it fires them,
and keeps the rest at the front of `leftover`, or leaves it there. -/
def LoopResult (ll : Llhttp) (st : CodecState) (src : Source) (raw : Bytes)
    (d : Drained UInt8 Unit Bytes) (result : Option (CodecState × List Action)) : Prop :=
  ∃ req actions, Pending ll d.rest req ∧
    (firedRequests actions).map HttpRequest.view = d.out.map (wholeView ll) ∧
    result =
      if d.out = [] then
        if st.leftover.readableBytes = 0 then
          (src.store raw st.leftover).map fun leftover => (⟨req, leftover⟩, actions)
        else some (⟨req, st.leftover⟩, actions)
      else if d.rest = [] then some (⟨req, st.leftover.clear⟩, actions)
      else
        ((src.advance (raw.length - d.rest.length)).store d.rest st.leftover.clear).map
          fun leftover => (⟨req, leftover⟩, actions)

theorem Source.advance_advance (m n : ℕ) (src : Source) :
    (src.advance m).advance n = src.advance (m + n) := by
  cases src with
  | caller => rfl
  | own offset => simp [Source.advance, Nat.add_assoc]

/-- A request in front of a stream that goes on. -/
theorem LoopResult.cons {hll : ll.Correct} {st : CodecState} {src : Source} {p s : Bytes}
    {fired : List Action} (hp : ll.Complete p) (hs : s ≠ [])
    (hfired : (firedRequests fired).map HttpRequest.view = [wholeView ll p])
    {result : Option (CodecState × List Action)}
    (h : LoopResult ll ⟨{}, st.leftover.clear⟩ (src.advance p.length) s
      (hll.framing.decoder.drain () s) result) :
    LoopResult ll st src (p ++ s) (hll.framing.decoder.drain () (p ++ s))
      (result.map fun r => (r.1, fired ++ r.2)) := by
  obtain ⟨req, actions, hreq, hviews, rfl⟩ := h
  rw [Framing.drain_cons (show hll.framing.IsMessage p from hp.requestSize)]
  refine ⟨req, fired ++ actions, hreq, by simp [hviews, hfired], ?_⟩
  have hclear : st.leftover.clear.readableBytes = 0 := rfl
  by_cases hout : (hll.framing.decoder.drain () s).out = []
  · have hrest := Framing.rest_of_out_eq_nil hout
    simp [hout, hrest, hs, hclear, Option.map_map, Function.comp_def]
  · by_cases hrest : (hll.framing.decoder.drain () s).rest = []
    · simp [hout, hrest]
      rfl
    · have hle := Framing.length_rest_le (f := hll.framing) s
      have hoffset : p.length + (s.length - (hll.framing.decoder.drain () s).rest.length) =
          (p ++ s).length - (hll.framing.decoder.drain () s).rest.length := by
        rw [List.length_append]
        omega
      simp only [hout, hrest, if_false, Source.advance_advance, hoffset, Option.map_map,
        List.cons_ne_nil]
      rfl

/-- **The loop cuts the stream into requests.** -/
theorem readLoop_drain (hll : ll.Correct) {fuel : ℕ} {st : CodecState} (src : Source)
    {raw w : Bytes} (hfuel : raw.length < fuel) (hw : w <+: raw)
    (hnone : ll.requestSize w = none) (hreq : Pending ll w st.request) :
    LoopResult ll st src raw (hll.framing.decoder.drain () raw)
      (readLoop unlimited ll fuel st src raw) := by
  induction fuel generalizing st src raw w with
  | zero => omega
  | succ fuel ih =>
    cases hsize : ll.requestSize raw with
    | none =>
      rw [Framing.drain_of_none (show hll.framing.size raw = none from hsize)]
      have hmsg := (requestSize_eq_none hll).mp hsize
      refine ⟨_, [], (hreq.mono hw).attempt hmsg 0, rfl, ?_⟩
      rw [readLoop_unfinished fuel st src rfl hmsg]
      rfl
    | some n =>
      obtain ⟨p, s, rfl, rfl, hp⟩ := hll.complete_front hsize
      obtain ⟨t, ht, hin⟩ := hll.parses hp
      have hlarge : ¬ t.TooLarge unlimited.maxHeaderSize := fun h => absurd h.1 (lt_irrefl 0)
      have hover : ¬ unlimited.OverLimit
          (t.attach (p ++ s) p.length st.request).ensureHeadersParsed.headers :=
        fun h => absurd h.1 (lt_irrefl 0)
      have hview := view_attach hin hreq.headers (hreq.method hll hnone hw hp ht) s
      rw [← wholeView_eq ht] at hview
      rw [readLoop_complete hll hp ht hin fuel st src s hlarge]
      simp only [if_neg hover]
      have hfired : (firedRequests (noted (t.attach (p ++ s) p.length st.request) ++
          [.fireRead (.request (t.attach (p ++ s) p.length st.request).ensureHeadersParsed)])).map
          HttpRequest.view = [wholeView ll p] := by
        rw [firedRequests_noted, List.map_singleton, hview]
      by_cases hs : s = []
      · subst hs
        rw [Framing.drain_cons (show hll.framing.IsMessage p from hp.requestSize),
          Decoder.drain_nil]
        exact ⟨{}, _, pending_fresh ll _, hfired, rfl⟩
      · have hpos := hll.length_pos hp
        have hempty : hll.framing.size [] = none :=
          Framing.size_of_part hp.requestSize List.nil_prefix hpos
        have hless : s.length < fuel := by
          rw [List.length_append] at hfuel
          omega
        simp only [if_neg hs]
        exact LoopResult.cons hp hs hfired
          (ih _ hless List.nil_prefix hempty (pending_fresh ll _))

/-! ## One buffer -/

/-- Between two reads the codec holds the part `w` of a request. -/
structure Holds (ll : Llhttp) (st : CodecState) (w : Bytes) : Prop where
  readable : st.leftover.readable = w
  readerIndex : st.leftover.readerIndex = 0
  pending : Pending ll w st.request
  unfinished : ll.requestSize w = none

/-- The rest behind the last request is longer than what stands before it in `leftover`. -/
def Collides (w : Bytes) (n : ℕ) (d : Drained UInt8 Unit Bytes) : Prop :=
  w ≠ [] ∧ d.out ≠ [] ∧ n - d.rest.length < d.rest.length

section step

variable (hll : ll.Correct) {st : CodecState} {w : Bytes} (hst : Holds ll st w) {buf : ByteBuf}
  (hne : buf.readable ≠ [])
include hll hst hne

/-- A read on top of a part that is held. -/
theorem channelRead_held (hw : w ≠ []) :
    LoopResult ll { st with leftover := st.leftover.writeBytes buf.readable } (.own 0)
      (w ++ buf.readable) (hll.framing.decoder.drain () (w ++ buf.readable))
      (channelRead unlimited ll st (.buffer buf)) := by
  rw [channelRead_of_held hne (by rwa [hst.readable]), hst.readable, hst.readerIndex]
  exact readLoop_drain hll _ (Nat.lt_succ_self _) (List.prefix_append w _) hst.unfinished
    hst.pending

/-- A read on a connection that holds nothing. -/
theorem channelRead_idle (hw : w = []) (hstart : startsRequest buf.readable = true) :
    LoopResult ll st .caller buf.readable (hll.framing.decoder.drain () buf.readable)
      (channelRead unlimited ll st (.buffer buf)) := by
  subst hw
  rw [channelRead_of_idle hne hst.readable hstart]
  exact readLoop_drain hll _ (Nat.lt_succ_self _) List.nil_prefix hst.unfinished hst.pending

/-- **A read that collides** is undefined. -/
theorem channelRead_collides
    (hc : Collides w (w ++ buf.readable).length
      (hll.framing.decoder.drain () (w ++ buf.readable))) :
    channelRead unlimited ll st (.buffer buf) = none := by
  obtain ⟨hw, hout, hlt⟩ := hc
  obtain ⟨req, actions, -, -, hresult⟩ := channelRead_held hll hst hne hw
  have hrest : (hll.framing.decoder.drain () (w ++ buf.readable)).rest ≠ [] := fun h => by
    simp [h] at hlt
  rw [hresult, if_neg hout, if_neg hrest]
  simp only [Source.advance, Source.store, Nat.zero_add]
  rw [ByteBuf.writeFromSelf_clear_overlap hlt]
  rfl

/-- What a read without undefined behaviour leaves: `d` is the stream it saw, cut. -/
def Reads (ll : Llhttp) (d : Drained UInt8 Unit Bytes)
    (result : Option (CodecState × List Action)) : Prop :=
  ∃ st actions, result = some (st, actions) ∧ Holds ll st d.rest ∧
    (firedRequests actions).map HttpRequest.view = d.out.map (wholeView ll)

theorem reads_idle (hw : w = []) (hstart : startsRequest buf.readable = true) :
    Reads ll (hll.framing.decoder.drain () buf.readable)
      (channelRead unlimited ll st (.buffer buf)) := by
  obtain ⟨req, actions, hreq, hviews, hresult⟩ := channelRead_idle hll hst hne hw hstart
  have hunfinished := (Framing.flatten_drain (f := hll.framing) buf.readable).2.2
  have hidle : st.leftover.readable = [] := hst.readable.trans hw
  rw [hresult]
  by_cases hout : (hll.framing.decoder.drain () buf.readable).out = []
  · have hrest := Framing.rest_of_out_eq_nil hout
    rw [if_pos hout, if_pos ((ByteBuf.readable_eq_nil_iff _).mp hidle)]
    refine ⟨_, actions, rfl, ⟨by simp [hidle, hrest], ?_, hreq, hunfinished⟩, hviews⟩
    exact (ByteBuf.readerIndex_writeBytes _ _).trans hst.readerIndex
  · rw [if_neg hout]
    by_cases hrest : (hll.framing.decoder.drain () buf.readable).rest = []
    · rw [if_pos hrest]
      exact ⟨_, actions, rfl, ⟨by simp [hrest], rfl, hreq, hunfinished⟩, hviews⟩
    · rw [if_neg hrest]
      exact ⟨_, actions, rfl, ⟨by simp, ByteBuf.readerIndex_writeBytes _ _, hreq, hunfinished⟩,
        hviews⟩

theorem reads_held (hw : w ≠ [])
    (hc : ¬ Collides w (w ++ buf.readable).length
      (hll.framing.decoder.drain () (w ++ buf.readable))) :
    Reads ll (hll.framing.decoder.drain () (w ++ buf.readable))
      (channelRead unlimited ll st (.buffer buf)) := by
  obtain ⟨req, actions, hreq, hviews, hresult⟩ := channelRead_held hll hst hne hw
  have hunfinished := (Framing.flatten_drain (f := hll.framing) (w ++ buf.readable)).2.2
  have hread : (st.leftover.writeBytes buf.readable).readable = w ++ buf.readable := by
    rw [ByteBuf.readable_writeBytes, hst.readable]
  have hindex : (st.leftover.writeBytes buf.readable).readerIndex = 0 :=
    (ByteBuf.readerIndex_writeBytes _ _).trans hst.readerIndex
  rw [hresult]
  by_cases hout : (hll.framing.decoder.drain () (w ++ buf.readable)).out = []
  · have hrest := Framing.rest_of_out_eq_nil hout
    have hheld : (st.leftover.writeBytes buf.readable).readableBytes ≠ 0 := by
      rw [← ByteBuf.length_readable, hread]
      simpa using fun h => absurd h hw
    rw [if_pos hout, if_neg hheld]
    exact ⟨_, actions, rfl, ⟨hread.trans hrest.symm, hindex, hreq, hunfinished⟩, hviews⟩
  · rw [if_neg hout]
    by_cases hrest : (hll.framing.decoder.drain () (w ++ buf.readable)).rest = []
    · rw [if_pos hrest]
      exact ⟨_, actions, rfl, ⟨by simp [hrest], rfl, hreq, hunfinished⟩, hviews⟩
    · -- the rest is moved to the front of the storage it lies in
      have hdisjoint : (hll.framing.decoder.drain () (w ++ buf.readable)).rest.length ≤
          (w ++ buf.readable).length -
            (hll.framing.decoder.drain () (w ++ buf.readable)).rest.length :=
        Nat.not_lt.mp fun h => hc ⟨hw, hout, h⟩
      have hwhole : (w ++ buf.readable).length -
            (hll.framing.decoder.drain () (w ++ buf.readable)).rest.length +
          (hll.framing.decoder.drain () (w ++ buf.readable)).rest.length =
          (st.leftover.writeBytes buf.readable).readableBytes := by
        rw [← ByteBuf.length_readable, hread]
        exact Nat.sub_add_cancel (Framing.length_rest_le _)
      obtain ⟨leftover, hmove, hkept, hfront⟩ :=
        ByteBuf.writeFromSelf_clear hindex hwhole hdisjoint
      rw [if_neg hrest]
      simp only [Source.advance, Source.store, Nat.zero_add, hmove]
      rw [hread, Framing.drop_rest] at hkept
      exact ⟨_, actions, rfl, ⟨hkept, hfront, hreq, hunfinished⟩, hviews⟩

/-- **A read that does not collide** delivers the requests that have come, and holds the
rest. -/
theorem channelRead_reads (hstart : w = [] → startsRequest buf.readable = true)
    (hc : ¬ Collides w (w ++ buf.readable).length
      (hll.framing.decoder.drain () (w ++ buf.readable))) :
    Reads ll (hll.framing.decoder.drain () (w ++ buf.readable))
      (channelRead unlimited ll st (.buffer buf)) := by
  by_cases hw : w = []
  · have hread := reads_idle hll hst hne hw (hstart hw)
    rwa [hw, List.nil_append]
  · exact reads_held hll hst hne hw hc

end step

end HttpServerCodec

end XNetty
