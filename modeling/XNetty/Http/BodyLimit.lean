import XNetty.Http.SentRequest

/-!
# The limit of bodies

The codec holds a request back when its `Content-Length`, as it reads the header list, is over the
limit. How long the body is has been decided by the parser library, which may have gone by
another header, and reads values from where they are.

## Main definitions

* `HttpServerCodec.WithinLimit` — no body that is passed on is over the limit.
* `HttpServerCodec.Announced` — a body over the limit is announced as one.
* `HttpServerCodec.readAll_withinLimit` — when no body over the limit is passed on.
-/

namespace XNetty

namespace HttpServerCodec

open Incremental

variable {codec : HttpServerCodec} {ll : Llhttp}

/-! ## What is passed on -/

/-- A request object that holds headers holds those of a request over the limit. -/
def Lingers (codec : HttpServerCodec) (req : HttpRequest) : Prop :=
  req.headers = [] ∨ codec.OverLimit req.headers

/-- The request was made of one of these, which is within the limit by its own headers. -/
def FromWithin (codec : HttpServerCodec) (ll : Llhttp) (ps : List Bytes) (req : HttpRequest) :
    Prop :=
  ∃ p ∈ ps, req.PointsAt p ∧ ¬ codec.OverLimit (ownHeaders ll p)

/-- Headers that linger do not hide those of the next request. -/
theorem Lingers.overLimit {req : HttpRequest} (h : codec.Lingers req) {p : Bytes} {t : Parse}
    (ht : (ll.execute p).callbacks = t.callbacks) (hin : t.Within p) (s : Bytes)
    (hown : codec.OverLimit (ownHeaders ll p)) :
    codec.OverLimit (t.attach (p ++ s) p.length req).ensureHeadersParsed.headers := by
  have hheaders : (t.attach (p ++ s) p.length req).ensureHeadersParsed.headers =
      req.headers ++ ownHeaders ll p := by
    rw [← ownHeaders_eq ht req, headers_attach, headers_attach, readHeaders_append hin s]
  rw [hheaders]
  rcases h with hnone | hover
  · rw [hnone]
    exact hown
  · exact hover.append hown

/-- No body of these requests is longer than the limit. -/
def WithinLimit (codec : HttpServerCodec) (ll : Llhttp) (reqs : List HttpRequest) : Prop :=
  ∀ req ∈ reqs, ∀ (rq : SentRequest) (t : Parse), req.PointsAt rq.text →
    (ll.execute rq.text).callbacks = t.callbacks → rq.FoundBy t →
      rq.body.size ≤ codec.maxBodySize

/-- If `p` is a request with a body over the limit, then its headers, as the codec reads them,
say so. -/
def Announced (codec : HttpServerCodec) (ll : Llhttp) (p : Bytes) : Prop :=
  ∀ (rq : SentRequest) (t : Parse), rq.text = p → (ll.execute p).callbacks = t.callbacks →
    rq.FoundBy t → codec.maxBodySize < rq.body.size → codec.OverLimit rq.read

theorem FromWithin.withinLimit {ps : List Bytes} (hps : ∀ p ∈ ps, Announced codec ll p)
    {reqs : List HttpRequest} (h : ∀ req ∈ reqs, FromWithin codec ll ps req) :
    WithinLimit codec ll reqs := by
  intro req hreq rq t hpoints ht hfound
  obtain ⟨p, hp, hp', hfits⟩ := h req hreq
  obtain rfl := hp'.unique hpoints
  rw [ownHeaders_sent ht hfound] at hfits
  exact not_lt.mp fun hlong => hfits (hps _ hp rq t rfl ht hfound hlong)

theorem withinLimit_singleton {req : HttpRequest} {p : Bytes} (hpoints : req.PointsAt p)
    (hfits : ¬ codec.OverLimit (ownHeaders ll p)) :
    WithinLimit codec ll [req] ↔ Announced codec ll p := by
  constructor
  · rintro hwithin rq t rfl ht hfound hlong
    have hsize := hwithin req (List.mem_singleton_self req) rq t hpoints ht hfound
    omega
  · intro hannounced
    have hall : ∀ q ∈ [p], Announced codec ll q := List.forall_mem_singleton.mpr hannounced
    apply FromWithin.withinLimit hall
    intro r hr
    obtain rfl := List.mem_singleton.mp hr
    exact ⟨p, List.mem_singleton_self p, hpoints, hfits⟩

variable (hll : ll.Correct)
include hll

/-- **What the loop passes on.** -/
theorem readLoop_fromWithin {fuel : ℕ} {st st' : CodecState} {src : Source} {raw : Bytes}
    {actions : List Action} (h : readLoop codec ll fuel st src raw = some (st', actions))
    (hst : codec.Lingers st.request) :
    codec.Lingers st'.request ∧ ∀ req ∈ firedRequests actions,
      FromWithin codec ll (hll.framing.decoder.drain () raw).out req := by
  induction fuel generalizing st st' src raw actions with
  | zero =>
    obtain ⟨rfl, rfl⟩ := Prod.mk.inj (Option.some.inj h)
    exact ⟨hst, List.forall_mem_nil _⟩
  | succ fuel ih =>
    by_cases hmsg : .messageComplete ∈ (ll.execute raw).callbacks
    · obtain ⟨p, ⟨s, rfl⟩, hp⟩ := hll.reports hmsg
      obtain ⟨t, ht, hin⟩ := hll.parses hp
      by_cases hlarge : t.TooLarge codec.maxHeaderSize
      · rw [readLoop_tooLarge hll hp ht fuel st src s hlarge] at h
        obtain ⟨rfl, rfl⟩ := Prod.mk.inj (Option.some.inj h)
        exact ⟨hst, List.forall_mem_nil _⟩
      · rw [readLoop_complete hll hp ht hin fuel st src s hlarge] at h
        rw [Framing.drain_cons (show hll.framing.IsMessage p from hp.requestSize)]
        dsimp only at h
        have hpoints : (t.attach (p ++ s) p.length st.request).ensureHeadersParsed.PointsAt p :=
          MadeOf.pointsAt ⟨hp, t, s, ht, hin, rfl⟩
        split at h
        next hover =>
          obtain ⟨rfl, rfl⟩ := Prod.mk.inj (Option.some.inj h)
          exact ⟨.inr hover, List.forall_mem_nil _⟩
        next hfits =>
          have hfirst : ¬ codec.OverLimit (ownHeaders ll p) :=
            fun hown => hfits (hst.overLimit ht hin s hown)
          split at h
          · obtain ⟨rfl, rfl⟩ := Prod.mk.inj (Option.some.inj h)
            refine ⟨.inl rfl, ?_⟩
            rw [firedRequests_noted, List.forall_mem_singleton]
            exact ⟨p, List.mem_cons_self, hpoints, hfirst⟩
          · obtain ⟨⟨st'', later⟩, hlater, hresult⟩ := Option.map_eq_some_iff.mp h
            obtain ⟨rfl, rfl⟩ := Prod.mk.inj hresult
            obtain ⟨hlingers, hrest⟩ := ih hlater (.inl rfl)
            refine ⟨hlingers, ?_⟩
            rw [firedRequests_append, firedRequests_noted, List.singleton_append,
              List.forall_mem_cons]
            refine ⟨⟨p, List.mem_cons_self, hpoints, hfirst⟩, ?_⟩
            intro req hreq
            obtain ⟨q, hq, hreq⟩ := hrest req hreq
            exact ⟨q, List.mem_cons_of_mem _ hq, hreq⟩
    · obtain ⟨hfired, hsame⟩ := readLoop_quiet hmsg h
      rw [hfired]
      refine ⟨?_, List.forall_mem_nil _⟩
      rw [Lingers, hsame]
      exact hst

/-- **What a call passes on** was in front of the bytes it has then. -/
theorem channelRead_fromWithin {st st' : CodecState} {buf : ByteBuf} {actions : List Action}
    (h : channelRead codec ll st (.buffer buf) = some (st', actions))
    (hst : codec.Lingers st.request) :
    codec.Lingers st'.request ∧ ∀ req ∈ firedRequests actions, FromWithin codec ll
      (hll.framing.decoder.drain () (st.leftover.readable ++ buf.readable)).out req := by
  by_cases hne : buf.readable = []
  · rw [channelRead, if_pos ((ByteBuf.readable_eq_nil_iff _).mp hne)] at h
    obtain ⟨rfl, rfl⟩ := Prod.mk.inj (Option.some.inj h)
    exact ⟨hst, List.forall_mem_nil _⟩
  by_cases hidle : st.leftover.readable = []
  · by_cases hstart : startsRequest buf.readable = true
    · rw [channelRead_of_idle hne hidle hstart] at h
      rw [hidle, List.nil_append]
      exact readLoop_fromWithin hll h hst
    · rw [channelRead_of_other hidle (by simpa using hstart)] at h
      obtain ⟨rfl, rfl⟩ := Prod.mk.inj (Option.some.inj h)
      exact ⟨hst, List.forall_mem_nil _⟩
  · rw [channelRead_of_held hne hidle] at h
    exact readLoop_fromWithin hll h hst

variable (codec) in
/-- The requests in front of the bytes that each call has are so. -/
def AllAnnounced (st : CodecState) : List ByteBuf → Prop
  | [] => True
  | buf :: bufs =>
    (∀ p ∈ (hll.framing.decoder.drain () (st.leftover.readable ++ buf.readable)).out,
        Announced codec ll p) ∧
      ∀ r ∈ channelRead codec ll st (.buffer buf), AllAnnounced r.1 bufs

theorem readAll_withinLimit_from {bufs : List ByteBuf} {st st' : CodecState}
    {actions : List Action} (h : readAll codec ll st bufs = some (st', actions))
    (hst : codec.Lingers st.request) (hbufs : AllAnnounced codec hll st bufs) :
    WithinLimit codec ll (firedRequests actions) := by
  induction bufs generalizing st actions with
  | nil =>
    obtain ⟨rfl, rfl⟩ := Prod.mk.inj (Option.some.inj h)
    exact List.forall_mem_nil _
  | cons buf bufs ih =>
    obtain ⟨hfirst, hlater⟩ := hbufs
    rw [readAll] at h
    split at h
    next => cases h
    next r hread =>
      obtain ⟨⟨st'', later⟩, hrest, hresult⟩ := Option.map_eq_some_iff.mp h
      obtain ⟨rfl, rfl⟩ := Prod.mk.inj hresult
      obtain ⟨hlingers, hfired⟩ := channelRead_fromWithin hll hread hst
      rw [firedRequests_append]
      intro req hreq
      rcases List.mem_append.mp hreq with hreq | hreq
      · exact FromWithin.withinLimit hfirst hfired req hreq
      · exact ih hrest hlingers (hlater r hread) req hreq

/-- **The limit of bodies.** No request with a body over the limit is passed on, if each one in
the stream says so in a `Content-Length` that the codec reads as such. -/
theorem readAll_withinLimit {bufs : List ByteBuf} {st : CodecState} {actions : List Action}
    (h : readAll codec ll .fresh bufs = some (st, actions))
    (hbufs : AllAnnounced codec hll .fresh bufs) : WithinLimit codec ll (firedRequests actions) :=
  readAll_withinLimit_from hll h (.inl rfl) hbufs

/-- For a request in a buffer of its own, there is no other way. -/
theorem withinLimit_alone_iff {buf : ByteBuf} (hbuf : ll.Complete buf.readable)
    (hstart : startsRequest buf.readable = true)
    (hsmall : sectionTooLarge codec ll buf.readable = false) :
    (∀ r ∈ channelRead codec ll .fresh (.buffer buf),
        WithinLimit codec ll (firedRequests r.2)) ↔ Announced codec ll buf.readable := by
  obtain ⟨t, ht, hin⟩ := hll.parses hbuf
  have hlarge : ¬ t.TooLarge codec.maxHeaderSize := by
    rw [← sectionTooLarge_iff ht, hsmall]
    exact Bool.false_ne_true
  have hpoints :
      (t.attach buf.readable buf.readable.length {}).ensureHeadersParsed.PointsAt buf.readable :=
    MadeOf.pointsAt ⟨hbuf, t, [], ht, hin, by rw [List.append_nil]⟩
  have hheaders := ownHeaders_eq ht {}
  rw [show ({} : HttpRequest).headers = [] from rfl, List.nil_append] at hheaders
  have hread := @channelRead_whole codec ll hll _ _ hbuf ht hin .fresh buf rfl rfl hstart
  simp only [if_neg hlarge] at hread
  have hreq : CodecState.fresh.request = {} := rfl
  rw [hread, hreq, hheaders]
  by_cases hover : codec.OverLimit (ownHeaders ll buf.readable)
  · rw [if_pos hover]
    refine iff_of_true ?_ ?_
    · intro r hr
      obtain rfl := Option.some.inj hr
      exact List.forall_mem_nil _
    · intro rq t' htext ht' hfound _
      rw [← htext] at ht'
      rwa [← ownHeaders_sent ht' hfound, htext]
  · rw [if_neg hover]
    simp only [Option.mem_def, Option.some.injEq, forall_eq', firedRequests_noted]
    exact withinLimit_singleton hpoints hover

omit hll

/-! ## Bodies that are announced otherwise -/

section otherwise

theorem foundBy_recording {rq : SentRequest} (hbody : rq.body.trailers = [])
    (method major minor : ℕ) : rq.FoundBy (rq.toText.recording method major minor).parse := by
  have hfound := rq.toText.foundBy_recording method major minor
  refine ⟨hfound.url, hfound.headers, ?_⟩
  rw [hbody, hfound.trailers]
  trivial

/-- A body of five bytes in a chunk. -/
def chunkedRequest : SentRequest where
  start := ascii "POST "
  target := ascii "/"
  version := ascii " HTTP/1.1\r\n"
  headers :=
    [.plain (ascii "Transfer-Encoding") 1 (ascii "chunked") (by decide +kernel)
      (by decide +kernel) (by decide +kernel)]
  body := .chunked [⟨ascii "5", ascii "hello", by decide +kernel, by decide +kernel⟩] (ascii "0") []
  target_ne := root_ne_nil
  framed := by
    refine ⟨⟨_, List.mem_singleton_self _, ?_, ?_⟩, ?_, ?_⟩ <;> decide +kernel

/-- The same body with its length right behind the colon. -/
def tightRequest : SentRequest where
  start := ascii "POST "
  target := ascii "/"
  version := ascii " HTTP/1.1\r\n"
  headers :=
    [.plain (ascii "Content-Length") 0 (ascii "5") (by decide +kernel) (by decide +kernel)
      (by decide +kernel)]
  body := .contentLength (ascii "hello")
  target_ne := root_ne_nil
  framed := by
    refine ⟨⟨_, List.mem_singleton_self _, ?_⟩, ?_, ?_⟩ <;> decide +kernel

/-- In a buffer of its own the request is passed on, though its body is longer than three bytes. -/
def PassedOnOverThree (rq : SentRequest) : Prop :=
  (rq.toText.llhttp 3 1 1).Correct ∧
    ∃ r ∈ readAll { maxBodySize := 3 } (rq.toText.llhttp 3 1 1) .fresh [.copyOf rq.text],
      ¬ WithinLimit { maxBodySize := 3 } (rq.toText.llhttp 3 1 1) (firedRequests r.2)

theorem passedOnOverThree {rq : SentRequest} (hrq : rq = chunkedRequest ∨ rq = tightRequest) :
    PassedOnOverThree rq := by
  refine ⟨rq.toText.llhttp_correct 3 1 1, ?_⟩
  have htrailers : rq.body.trailers = [] ∧ rq.body.size = 5 := by
    rcases hrq with rfl | rfl <;> decide +kernel
  have hfired : (readAll { maxBodySize := 3 } (rq.toText.llhttp 3 1 1) .fresh [.copyOf rq.text]).map
      (fun r => (firedRequests r.2).map fun req => (req.rawData, req.rawDataLen)) =
        some [(some rq.text, rq.text.length)] := by
    rcases hrq with rfl | rfl <;> decide +kernel
  obtain ⟨r, hr, hone⟩ := Option.map_eq_some_iff.mp hfired
  refine ⟨r, hr, fun hwithin => ?_⟩
  obtain ⟨req, hreq, hdata⟩ := List.map_eq_singleton_iff.mp hone
  obtain ⟨hraw, hlen⟩ := Prod.mk.inj hdata
  have hsize := hwithin req (by rw [hreq]; exact List.mem_singleton_self _) rq _
    ⟨[], by rw [hraw, List.append_nil], hlen⟩ (rq.toText.llhttp_callbacks 3 1 1)
    (foundBy_recording htrailers.1 3 1 1)
  rw [htrailers.2] at hsize
  exact absurd hsize (by decide)

/-- **Bodies over the limit that are passed on**: five bytes where three are allowed. -/
theorem not_withinLimit_otherwise :
    PassedOnOverThree chunkedRequest ∧ PassedOnOverThree tightRequest :=
  ⟨passedOnOverThree (.inl rfl), passedOnOverThree (.inr rfl)⟩

/-- Without header lines there is no body. -/
theorem announced_of_none {p : Bytes} (hnone : ownHeaders ll p = []) : Announced codec ll p := by
  rintro rq t rfl ht hfound hlong
  rw [ownHeaders_sent ht hfound, SentRequest.read, List.map_eq_nil_iff,
    List.append_eq_nil_iff] at hnone
  have hframed := rq.framed
  rw [hnone.1] at hframed
  cases hbody : rq.body with
  | none =>
    rw [hbody] at hlong
    exact absurd hlong (Nat.not_lt_zero _)
  | contentLength content =>
    rw [hbody] at hframed
    obtain ⟨h, hmem, -⟩ := hframed.1
    exact absurd hmem List.not_mem_nil
  | chunked chunks last trailers =>
    rw [hbody] at hframed
    obtain ⟨h, hmem, -⟩ := hframed.1
    exact absurd hmem List.not_mem_nil

theorem announced_of_overLimit {p : Bytes} (hover : codec.OverLimit (ownHeaders ll p)) :
    Announced codec ll p := by
  rintro rq t rfl ht hfound -
  rwa [← ownHeaders_sent ht hfound]

/-- A request without a body is passed on, and one is refused for its body. -/
theorem readAll_withinLimit_postAndGet :
    ∃ r ∈ readAll { maxBodySize := 2 } (.ofRecordings postAndGet) .fresh
        [.copyOf rootRequest.text, .copyOf postRequest.text],
      (firedRequests r.2).length = 1 ∧
        WithinLimit { maxBodySize := 2 } (.ofRecordings postAndGet) (firedRequests r.2) := by
  have hll := Llhttp.ofRecordings_correct postAndGet_sound
  have hfired : (readAll { maxBodySize := 2 } (.ofRecordings postAndGet) .fresh
      [.copyOf rootRequest.text, .copyOf postRequest.text]).map
        (fun r => (firedRequests r.2).length) = some 1 := by decide +kernel
  have hidle : ∀ r ∈ channelRead { maxBodySize := 2 } (.ofRecordings postAndGet) .fresh
      (.buffer (.copyOf rootRequest.text)), r.1.leftover.readable = [] := by decide +kernel
  have halone : ∀ b ∈ [ByteBuf.copyOf postRequest.text, .copyOf rootRequest.text],
      ∀ p ∈ (hll.framing.decoder.drain () ([] ++ b.readable)).out, p = b.readable := by
    intro b hb p hp
    have hmsg : ∀ q ∈ [b.readable], hll.framing.IsMessage q :=
      List.forall_mem_singleton.mpr (postAndGet_complete b hb).requestSize
    have hdrain := Framing.drain_flatten hmsg
    rw [List.flatten_singleton] at hdrain
    rw [List.nil_append, hdrain] at hp
    exact List.mem_singleton.mp hp
  obtain ⟨⟨st, actions⟩, hr, hone⟩ := Option.map_eq_some_iff.mp hfired
  refine ⟨_, hr, hone, readAll_withinLimit hll hr ⟨?_, ?_⟩⟩
  · intro p hp
    rw [halone _ (by simp) p hp]
    exact announced_of_none (by decide +kernel)
  · intro r hread
    refine ⟨?_, fun _ _ => trivial⟩
    rw [hidle r hread]
    intro p hp
    rw [halone _ (by simp) p hp]
    exact announced_of_overLimit (by decide +kernel)

end otherwise

end HttpServerCodec

end XNetty
