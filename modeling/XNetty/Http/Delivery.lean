import XNetty.Http.Recording
import XNetty.Http.Segmentation

/-!
# Where delivered requests come from

Whatever bytes a connection receives and whatever its limits are, a request that is passed
on was made of one whole request in the stream, and of the request object that the codec
held when it found it.

## Main definitions

* `HttpRequest.PointsAt` — the bytes a request is about.
* `HttpServerCodec.MadeOf` — how the codec makes a request.
* `HttpServerCodec.channelRead_fired`, `HttpServerCodec.readAll_fired` — every request that
  is passed on is made so.
* `RequestText.decoded` — what a request on record becomes on a fresh connection.
-/

namespace XNetty

/-- The request is about the bytes `p`. -/
def HttpRequest.PointsAt (req : HttpRequest) (p : Bytes) : Prop :=
  ∃ s, req.rawData = some (p ++ s) ∧ req.rawDataLen = p.length

theorem HttpRequest.PointsAt.unique {req : HttpRequest} {p q : Bytes} (hp : req.PointsAt p)
    (hq : req.PointsAt q) : p = q := by
  obtain ⟨s, hdata, hlen⟩ := hp
  obtain ⟨s', hdata', hlen'⟩ := hq
  rw [hdata] at hdata'
  exact (List.append_inj (Option.some.inj hdata') (hlen.symm.trans hlen')).1

namespace HttpServerCodec

variable {codec : HttpServerCodec} {ll : Llhttp}

/-- The codec, with `r` in its state, makes `req` of the whole request `p`. -/
def MadeOf (ll : Llhttp) (r : HttpRequest) (p : Bytes) (req : HttpRequest) : Prop :=
  ll.Complete p ∧ ∃ (t : Parse) (s : Bytes), (ll.execute p).callbacks = t.callbacks ∧ t.Within p ∧
    req = (t.attach (p ++ s) p.length r).ensureHeadersParsed

section made

variable {r : HttpRequest} {p : Bytes} {req : HttpRequest}

theorem MadeOf.pointsAt (h : MadeOf ll r p req) : req.PointsAt p := by
  obtain ⟨-, t, s, -, -, rfl⟩ := h
  exact ⟨s, by simp [Parse.attach, HttpRequest.setRawData],
    by simp [Parse.attach, HttpRequest.setRawData]⟩

/-- Headers that the codec's request object had come first. -/
theorem MadeOf.headers (h : MadeOf ll r p req) {t : Parse}
    (ht : (ll.execute p).callbacks = t.callbacks) :
    ∃ s, req.ensureHeadersParsed.headers =
      r.headers ++
        (headerEntries (t.headers ++ t.trailers)).map (HttpRequest.readHeader (p ++ s)) := by
  obtain ⟨-, t', s, ht', -, rfl⟩ := h
  obtain rfl := Parse.callbacks_injective (ht.symm.trans ht')
  exact ⟨s, by rw [HttpRequest.ensureHeadersParsed_idem, headers_attach]⟩

theorem contentLength_requestLine (t : Parse) (raw : Bytes) (r : HttpRequest) :
    (t.requestLine raw r).contentLength = r.contentLength := by
  unfold Parse.requestLine
  cases methodOf t.method <;> rfl

/-- **The body** begins where the headers were thought to end. -/
theorem MadeOf.body (h : MadeOf ll r p req) (hlength : r.contentLength = 0) {t : Parse}
    (ht : (ll.execute p).callbacks = t.callbacks) (hstop : t.headerEnd < p.length) :
    req.body = p.drop t.headerEnd := by
  obtain ⟨-, t', s, ht', hin, rfl⟩ := h
  obtain rfl := Parse.callbacks_injective (ht.symm.trans ht')
  have hend := headerEnd_pos hin
  have hzero : (t.attach (p ++ s) p.length r).contentLength = 0 :=
    (contentLength_requestLine t (p ++ s) r).trans hlength
  unfold HttpRequest.body HttpRequest.ensureBodyParsed
  simp only [HttpRequest.bodyParsed_ensureHeadersParsed, HttpRequest.rawData_ensureHeadersParsed,
    HttpRequest.headerEnd_ensureHeadersParsed, HttpRequest.rawDataLen_ensureHeadersParsed,
    HttpRequest.contentLength_ensureHeadersParsed, hzero]
  simp only [Parse.attach, HttpRequest.setRawData, Bool.false_eq_true, if_false, hend.ne',
    lt_irrefl, false_and, hstop, if_true]
  rw [substr_append (by omega)]
  unfold substr
  exact List.take_of_length_le (by simp)

end made

/-- The requests passed on by one read: `r` goes into the first of them. -/
def MadeInTurn (ll : Llhttp) : HttpRequest → List HttpRequest → Prop
  | _, [] => True
  | r, req :: reqs => (∃ p, MadeOf ll r p req) ∧ MadeInTurn ll {} reqs

theorem MadeInTurn.get {r : HttpRequest} {reqs : List HttpRequest} (h : MadeInTurn ll r reqs)
    {i : ℕ} {req : HttpRequest} (hi : reqs[i]? = some req) :
    ∃ p, MadeOf ll (if i = 0 then r else {}) p req := by
  induction reqs generalizing r i with
  | nil => simp at hi
  | cons first reqs ih =>
    cases i with
    | zero =>
      obtain rfl : first = req := by simpa using hi
      exact h.1
    | succ i =>
      obtain ⟨p, hp⟩ := ih h.2 (by simpa using hi)
      exact ⟨p, by simpa using hp⟩

/-- Without a whole request in front nothing is passed on. -/
theorem readLoop_quiet {fuel : ℕ} {st st' : CodecState} {src : Source} {raw : Bytes}
    {actions : List Action} (hmsg : .messageComplete ∉ (ll.execute raw).callbacks)
    (h : readLoop codec ll (fuel + 1) st src raw = some (st', actions)) :
    firedRequests actions = [] ∧ st.request.SameButLine st'.request := by
  obtain ⟨hcomplete, -, hsame, -⟩ := runCallbacks_unfinished hmsg raw
    { req := st.request, maxHeaderSize := codec.maxHeaderSize }
  rw [readLoop] at h
  simp only [hcomplete, Bool.false_eq_true, not_false_eq_true, if_true] at h
  split at h
  · obtain ⟨rfl, rfl⟩ := Prod.mk.inj (Option.some.inj h)
    exact ⟨rfl, hsame⟩
  · split at h
    · obtain ⟨leftover, -, hresult⟩ := Option.map_eq_some_iff.mp h
      obtain ⟨rfl, rfl⟩ := Prod.mk.inj hresult
      exact ⟨rfl, hsame⟩
    · obtain ⟨rfl, rfl⟩ := Prod.mk.inj (Option.some.inj h)
      exact ⟨rfl, hsame⟩

variable (hll : ll.Correct)
include hll

/-- **What the loop passes on** is made in turn of the requests it finds. -/
theorem readLoop_fired {fuel : ℕ} {st st' : CodecState} {src : Source} {raw : Bytes}
    {actions : List Action} (h : readLoop codec ll fuel st src raw = some (st', actions)) :
    MadeInTurn ll st.request (firedRequests actions) ∧
      (st.request.contentLength = 0 → st'.request.contentLength = 0) := by
  induction fuel generalizing st st' src raw actions with
  | zero =>
    obtain ⟨rfl, rfl⟩ := Prod.mk.inj (Option.some.inj h)
    exact ⟨trivial, id⟩
  | succ fuel ih =>
    by_cases hmsg : .messageComplete ∈ (ll.execute raw).callbacks
    · obtain ⟨p, ⟨s, rfl⟩, hp⟩ := hll.reports hmsg
      obtain ⟨t, ht, hin⟩ := hll.parses hp
      have hmade : MadeOf ll st.request p
          (t.attach (p ++ s) p.length st.request).ensureHeadersParsed :=
        ⟨hp, t, s, ht, hin, rfl⟩
      by_cases hlarge : t.TooLarge codec.maxHeaderSize
      · rw [readLoop_tooLarge hll hp ht fuel st src s hlarge] at h
        obtain ⟨rfl, rfl⟩ := Prod.mk.inj (Option.some.inj h)
        exact ⟨trivial, id⟩
      · rw [readLoop_complete hll hp ht hin fuel st src s hlarge] at h
        dsimp only at h
        split at h
        · obtain ⟨rfl, rfl⟩ := Prod.mk.inj (Option.some.inj h)
          refine ⟨trivial, fun hzero => ?_⟩
          rw [HttpRequest.contentLength_ensureHeadersParsed]
          exact (contentLength_requestLine t (p ++ s) st.request).trans hzero
        · split at h
          · obtain ⟨rfl, rfl⟩ := Prod.mk.inj (Option.some.inj h)
            exact ⟨⟨⟨p, hmade⟩, trivial⟩, fun _ => rfl⟩
          · obtain ⟨⟨st'', later⟩, hlater, hresult⟩ := Option.map_eq_some_iff.mp h
            obtain ⟨rfl, rfl⟩ := Prod.mk.inj hresult
            obtain ⟨hrest, hzero⟩ := ih hlater
            rw [firedRequests_append]
            exact ⟨⟨⟨p, hmade⟩, hrest⟩, fun _ => hzero rfl⟩
    · obtain ⟨hfired, hsame⟩ := readLoop_quiet hmsg h
      rw [hfired]
      refine ⟨trivial, fun hzero => ?_⟩
      rw [hsame]
      exact hzero

/-- **What one read passes on**, whatever state the connection is in. -/
theorem channelRead_fired {st st' : CodecState} {buf : ByteBuf} {actions : List Action}
    (h : channelRead codec ll st (.buffer buf) = some (st', actions)) :
    MadeInTurn ll st.request (firedRequests actions) ∧
      (st.request.contentLength = 0 → st'.request.contentLength = 0) := by
  unfold channelRead at h
  dsimp only at h
  split at h
  · obtain ⟨rfl, rfl⟩ := Prod.mk.inj (Option.some.inj h)
    exact ⟨trivial, id⟩
  split at h
  · obtain ⟨rfl, rfl⟩ := Prod.mk.inj (Option.some.inj h)
    exact ⟨trivial, id⟩
  split at h
  · have hloop := readLoop_fired hll h
    exact hloop
  · exact readLoop_fired hll h

/-- **What a connection passes on.** -/
theorem readAll_fired {bufs : List ByteBuf} {st st' : CodecState} {actions : List Action}
    (h : readAll codec ll st bufs = some (st', actions)) (hst : st.request.contentLength = 0) :
    ∀ req ∈ firedRequests actions, ∃ r p, r.contentLength = 0 ∧ MadeOf ll r p req := by
  induction bufs generalizing st actions with
  | nil =>
    obtain ⟨rfl, rfl⟩ := Prod.mk.inj (Option.some.inj h)
    simp
  | cons buf bufs ih =>
    rw [readAll] at h
    split at h
    next => cases h
    next r hread =>
      obtain ⟨⟨st'', later⟩, hlater, hresult⟩ := Option.map_eq_some_iff.mp h
      obtain ⟨rfl, rfl⟩ := Prod.mk.inj hresult
      obtain ⟨hfirst, hzero⟩ := channelRead_fired hll hread
      intro req hreq
      rw [firedRequests_append, List.mem_append] at hreq
      rcases hreq with hreq | hreq
      · obtain ⟨i, hi⟩ := List.getElem?_of_mem hreq
        obtain ⟨p, hp⟩ := hfirst.get hi
        refine ⟨_, p, ?_, hp⟩
        split
        · exact hst
        · rfl
      · exact ih hlater (hzero hst) req hreq

end HttpServerCodec

/-! ## A request on record, alone -/

namespace RequestText

open HttpServerCodec

variable (rq : RequestText) (method major minor : ℕ)

/-- The parser library that knows this request only. -/
def llhttp : Llhttp := .ofRecordings [rq.recording method major minor]

/-- What the codec makes of the request on a fresh connection. -/
def decoded : HttpRequest :=
  ((rq.recording method major minor).parse.attach rq.text rq.text.length {}).ensureHeadersParsed

theorem llhttp_correct : (rq.llhttp method major minor).Correct :=
  Llhttp.ofRecordings_correct (rq.sound_recording method major minor)

theorem llhttp_complete : (rq.llhttp method major minor).Complete rq.text :=
  Llhttp.complete_of_mem (rq.sound_recording method major minor)
    (List.mem_singleton_self (rq.recording method major minor))

theorem llhttp_callbacks : ((rq.llhttp method major minor).execute rq.text).callbacks =
    (rq.recording method major minor).parse.callbacks :=
  Llhttp.callbacks_of_mem (rq.sound_recording method major minor)
    (List.mem_singleton_self (rq.recording method major minor))

theorem decoded_pointsAt : (rq.decoded method major minor).PointsAt rq.text := by
  refine ⟨[], ?_, ?_⟩ <;>
    simp [decoded, Parse.attach, HttpRequest.setRawData]

/-- **A request alone** is passed on by a codec without limits. -/
theorem channelRead_alone (hstart : startsRequest rq.text = true) :
    channelRead unlimited (rq.llhttp method major minor) .fresh (.buffer (.copyOf rq.text)) =
      some (⟨{}, ByteBuf.empty.clear⟩,
        noted ((rq.recording method major minor).parse.attach rq.text rq.text.length {}) ++
          [.fireRead (.request (rq.decoded method major minor))]) := by
  have hwhole := @channelRead_whole unlimited _ (rq.llhttp_correct method major minor) _ _
    (rq.llhttp_complete method major minor) (rq.llhttp_callbacks method major minor)
    (rq.foundBy_recording method major minor).within .fresh
  exact hwhole (ByteBuf.readable_copyOf _) rfl hstart

end RequestText

end XNetty
