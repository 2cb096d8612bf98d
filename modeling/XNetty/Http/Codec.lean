import XNetty.Lib.Framing
import XNetty.Channel.Message
import XNetty.Http.Llhttp

/-!
# The inbound half of the HTTP codec

`channelRead` parses requests off the arriving buffer, or off its leftover storage when a
part of a request is kept there. A part that is left behind the last request is copied to
the front of that storage, which is undefined when the two overlap.

## Main definitions

* `HttpServerCodec.channelRead` — the handler; `none` is undefined behaviour.
* `HttpServerCodec.readAll` — a connection receiving one buffer after the other.
* `HttpServerCodec.readLoop_complete`, `HttpServerCodec.readLoop_unfinished` — one turn of it.
-/

namespace XNetty

/-- The handler with its limits, `0` for none. -/
structure HttpServerCodec where
  maxHeaderSize : ℕ := 0
  maxBodySize : ℕ := 0
  deriving DecidableEq

/-- `std::isspace` in the C locale. -/
def isSpace (c : UInt8) : Bool := c = 32 ∨ (9 ≤ c ∧ c ≤ 13)

/-- The digits at the front of a string. -/
def digitsValue (s : Bytes) : Option ℕ :=
  match s.takeWhile fun c => decide (48 ≤ c ∧ c ≤ 57) with
  | [] => none
  | ds => some (ds.foldl (fun n c => n * 10 + (c.toNat - 48)) 0)

/-- `std::stoul` in base ten; `none` where it throws. A minus sign negates modulo `2^64`. -/
def stoul (s : Bytes) : Option ℕ :=
  let s := s.dropWhile isSpace
  let (negative, digits) :=
    match s with
    | 43 :: ds => (false, ds)
    | 45 :: ds => (true, ds)
    | ds => (false, ds)
  match digitsValue digits with
  | none => none
  | some n =>
    if 2 ^ 64 ≤ n then none
    else if negative then some ((2 ^ 64 - n) % 2 ^ 64)
    else some n

namespace HttpServerCodec

structure CodecState where
  request : HttpRequest := {}
  leftover : ByteBuf := .empty

/-- The state of a connection the codec has not seen before. -/
def CodecState.fresh : CodecState := {}

/-- Where `raw` points. -/
inductive Source where
  /-- Into the buffer of the caller. -/
  | caller
  /-- Into the storage of `leftover`, so many bytes behind its start. -/
  | own (offset : ℕ)

def Source.advance (n : ℕ) : Source → Source
  | .caller => .caller
  | .own offset => .own (offset + n)

/-- `st.leftover.writeBytes(raw, len)`. -/
def Source.store (raw : Bytes) (leftover : ByteBuf) : Source → Option ByteBuf
  | .caller => some (leftover.writeBytes raw)
  | .own offset => leftover.writeFromSelf offset raw.length

def headerTooLarge : HttpResponse :=
  .plainText .requestHeaderFieldsTooLarge "Header Too Large"
def bodyTooLarge : HttpResponse := .plainText .payloadTooLarge "Body Too Large"

/-- The length that a request announces; what cannot be read is `0`. -/
def announced (cl : Bytes) : ℕ := (stoul cl).getD 0

variable (codec : HttpServerCodec) (ll : Llhttp)

/-- The loop over `raw`. Every turn that goes on consumes a byte, so one more turn than
there are bytes suffices. -/
def readLoop : ℕ → CodecState → Source → Bytes → Option (CodecState × List Action)
  | 0, st, _, _ => some (st, [])
  | fuel + 1, st, src, raw =>
    let x := ll.execute raw
    let pctx := runCallbacks raw { req := st.request, maxHeaderSize := codec.maxHeaderSize }
      x.callbacks
    if pctx.headerTooLarge then
      some (⟨pctx.req, st.leftover.clear⟩, [.writeAndFlush headerTooLarge])
    else if ¬ pctx.msgComplete then
      if st.leftover.readableBytes = 0 then
        (src.store raw st.leftover).map fun leftover => (⟨pctx.req, leftover⟩, [])
      else some (⟨pctx.req, st.leftover⟩, [])
    else
      let stop := x.errorPos.getD raw.length
      let consumed := if stop = 0 then raw.length else stop
      let request :=
        if pctx.headerOffsets ≠ [] ∨ pctx.headerEndOffset > 0 then
          pctx.req.setRawData raw (min consumed stop) pctx.headerOffsets pctx.headerEndOffset
        else pctx.req
      let noted := [Action.setConnKeepAlive (¬ request.hasConnectionClose), .signalActivity]
      let (cl, request) := request.header (ascii "Content-Length")
      if codec.maxBodySize > 0 ∧ cl ≠ [] ∧ announced cl > codec.maxBodySize then
        some (⟨request, st.leftover.clear⟩, noted ++ [.writeAndFlush bodyTooLarge])
      else
        let fired := noted ++ [.fireRead (.request request)]
        if consumed ≥ raw.length then some (⟨{}, st.leftover.clear⟩, fired)
        else
          (readLoop fuel ⟨{}, st.leftover.clear⟩ (src.advance consumed) (raw.drop consumed)).map
            fun r => (r.1, fired ++ r.2)

/-- `'A' <= raw[0] <= 'Z'`. -/
def startsRequest (raw : Bytes) : Bool := raw.head?.any fun c => decide (65 ≤ c ∧ c ≤ 90)

/-- `HttpServerCodec::channelRead`. -/
def channelRead (st : CodecState) : Msg → Option (CodecState × List Action)
  | .buffer buf =>
    if buf.readableBytes = 0 then some (st, [.fireRead (.buffer buf)])
    else
      let raw := buf.readable
      if st.leftover.readableBytes = 0 ∧ startsRequest raw = false then
        some (st, [.fireRead (.buffer buf)])
      else if st.leftover.readableBytes > 0 then
        let leftover := st.leftover.writeBytes raw
        readLoop codec ll (leftover.readableBytes + 1) { st with leftover := leftover }
          (.own leftover.readerIndex) leftover.readable
      else readLoop codec ll (raw.length + 1) st .caller raw
  | msg => some (st, [.fireRead msg])

section channelRead

variable {codec ll} {st : CodecState} {buf : ByteBuf} (hne : buf.readable ≠ [])
include hne

theorem channelRead_of_held (hheld : st.leftover.readable ≠ []) :
    channelRead codec ll st (.buffer buf) =
      readLoop codec ll ((st.leftover.readable ++ buf.readable).length + 1)
        { st with leftover := st.leftover.writeBytes buf.readable }
        (.own st.leftover.readerIndex) (st.leftover.readable ++ buf.readable) := by
  have hbuf : buf.readableBytes ≠ 0 := fun h => hne ((ByteBuf.readable_eq_nil_iff _).mpr h)
  have hleft : st.leftover.readableBytes ≠ 0 :=
    fun h => hheld ((ByteBuf.readable_eq_nil_iff _).mpr h)
  simp only [channelRead, if_neg hbuf, hleft, false_and, if_false,
    if_pos (Nat.pos_of_ne_zero hleft), ByteBuf.readerIndex_writeBytes, ByteBuf.readable_writeBytes]
  simp only [← ByteBuf.length_readable, ByteBuf.readable_writeBytes]

variable (hidle : st.leftover.readable = [])
include hidle

theorem channelRead_of_idle (hstart : startsRequest buf.readable = true) :
    channelRead codec ll st (.buffer buf) =
      readLoop codec ll (buf.readable.length + 1) st .caller buf.readable := by
  have hbuf : buf.readableBytes ≠ 0 := fun h => hne ((ByteBuf.readable_eq_nil_iff _).mpr h)
  have hleft : st.leftover.readableBytes = 0 := (ByteBuf.readable_eq_nil_iff _).mp hidle
  simp [channelRead, hbuf, hleft, hstart]

omit hne in
theorem channelRead_of_other (hstart : startsRequest buf.readable = false) :
    channelRead codec ll st (.buffer buf) = some (st, [.fireRead (.buffer buf)]) := by
  have hleft : st.leftover.readableBytes = 0 := (ByteBuf.readable_eq_nil_iff _).mp hidle
  simp [channelRead, hleft, hstart]

end channelRead

/-- One buffer after the other on one connection. -/
def readAll (st : CodecState) : List ByteBuf → Option (CodecState × List Action)
  | [] => some (st, [])
  | buf :: rest =>
    match channelRead codec ll st (.buffer buf) with
    | none => none
    | some r => (readAll r.1 rest).map fun t => (t.1, r.2 ++ t.2)

end HttpServerCodec

/-! ## Requests as frames -/

section framing

open Incremental

variable {ll : Llhttp}

/-- The length of the request in front, once its end is there. -/
def Llhttp.requestSize (ll : Llhttp) (raw : Bytes) : Option ℕ :=
  if .messageComplete ∈ (ll.execute raw).callbacks then (ll.execute raw).errorPos else none

theorem Llhttp.Complete.requestSize {p : Bytes} (hp : ll.Complete p) :
    ll.requestSize p = some p.length := by
  rw [Llhttp.requestSize, if_pos hp.1, hp.2]

namespace Llhttp.Correct

variable (hll : ll.Correct)
include hll

/-- A whole request is not empty. -/
theorem length_pos {p : Bytes} (hp : ll.Complete p) : 0 < p.length := by
  obtain ⟨t, -, hlen, hstop, -⟩ := hll.parses hp
  unfold Span.stop at hstop
  omega

theorem complete_front {raw : Bytes} {n : ℕ} (h : ll.requestSize raw = some n) :
    ∃ p s, raw = p ++ s ∧ p.length = n ∧ ll.Complete p := by
  unfold requestSize at h
  split at h
  next hmsg =>
    obtain ⟨p, ⟨s, rfl⟩, hp⟩ := hll.reports hmsg
    rw [hll.stable hp, hp.2] at h
    exact ⟨p, s, rfl, Option.some.inj h, hp⟩
  next => cases h

theorem requestSize_append {p : Bytes} (hp : ll.Complete p) (s : Bytes) :
    ll.requestSize (p ++ s) = some p.length := by
  rw [requestSize, hll.stable hp]
  exact hp.requestSize

omit hll in
/-- Cutting a stream into requests. -/
def framing (hll : ll.Correct) : Framing UInt8 where
  size := ll.requestSize
  size_bounds h := by
    obtain ⟨p, s, rfl, rfl, hp⟩ := hll.complete_front h
    exact ⟨hll.length_pos hp, by simp⟩
  stable ys h := by
    obtain ⟨p, s, rfl, rfl, hp⟩ := hll.complete_front h
    rw [List.append_assoc]
    exact hll.requestSize_append hp _

end Llhttp.Correct

end framing

/-! ## One turn of the loop -/

/-- A parsed request with its bytes attached. -/
def Parse.attach (t : Parse) (raw : Bytes) (n : ℕ) (req : HttpRequest) : HttpRequest :=
  (t.requestLine raw req).setRawData raw n (headerEntries (t.headers ++ t.trailers)) t.headerEnd

namespace HttpServerCodec

/-- The value of `Content-Length`, empty where there is none. -/
def contentLength (headers : List (Bytes × Bytes)) : Bytes :=
  (HttpRequest.findHeader headers (ascii "Content-Length")).getD []

/-- The headers announce a body over the limit. -/
def OverLimit (codec : HttpServerCodec) (headers : List (Bytes × Bytes)) : Prop :=
  codec.maxBodySize > 0 ∧ contentLength headers ≠ [] ∧
    announced (contentLength headers) > codec.maxBodySize

instance (codec : HttpServerCodec) (headers : List (Bytes × Bytes)) :
    Decidable (codec.OverLimit headers) := inferInstanceAs (Decidable (_ ∧ _ ∧ _))

/-- What every whole request does to the connection. -/
def noted (req : HttpRequest) : List Action :=
  [.setConnKeepAlive (¬ req.hasConnectionClose), .signalActivity]

section turn

variable {codec : HttpServerCodec} {ll : Llhttp} (hll : ll.Correct) {p : Bytes} {t : Parse}
  (hp : ll.Complete p) (ht : (ll.execute p).callbacks = t.callbacks) (hin : t.Within p)
  (fuel : ℕ) (st : CodecState) (src : Source) (s : Bytes)

include hll hp ht in
theorem readLoop_tooLarge (h : t.TooLarge codec.maxHeaderSize) :
    readLoop codec ll (fuel + 1) st src (p ++ s) =
      some (⟨st.request.setUri (substr (p ++ s) t.url.offset t.url.len), st.leftover.clear⟩,
        [.writeAndFlush headerTooLarge]) := by
  rw [readLoop, hll.stable hp, ht]
  simp only [t.runCallbacks_tooLarge h, if_true]

include hin in
theorem headerEnd_pos : 0 < t.headerEnd := by
  have hurl := le_maxStop t.url.stop t.headers
  have hlen := hin.1
  unfold Span.stop at hurl
  unfold Parse.headerEnd Span.stop
  omega

include hll hp ht hin in
/-- **A whole request in front**: it is judged, and the loop goes on behind it. -/
theorem readLoop_complete (h : ¬ t.TooLarge codec.maxHeaderSize) :
    readLoop codec ll (fuel + 1) st src (p ++ s) =
      let req := t.attach (p ++ s) p.length st.request
      if codec.OverLimit req.ensureHeadersParsed.headers then
        some (⟨req.ensureHeadersParsed, st.leftover.clear⟩,
          noted req ++ [.writeAndFlush bodyTooLarge])
      else if s = [] then
        some (⟨{}, st.leftover.clear⟩, noted req ++ [.fireRead (.request req.ensureHeadersParsed)])
      else
        (readLoop codec ll fuel ⟨{}, st.leftover.clear⟩ (src.advance p.length) s).map
          fun r => (r.1, noted req ++ [.fireRead (.request req.ensureHeadersParsed)] ++ r.2) := by
  have hpos := hll.length_pos hp
  have hend := headerEnd_pos hin
  rw [readLoop, hll.stable hp, ht]
  have hoffsets : headerEntries (t.headers ++ t.trailers) ≠ [] ∨ t.headerEnd > 0 := .inr hend
  simp only [t.runCallbacks_complete h, hp.2, Option.getD_some, Bool.false_eq_true, if_false,
    not_true_eq_false, if_pos hoffsets, if_neg hpos.ne', min_self]
  by_cases hover : codec.OverLimit
      (t.attach (p ++ s) p.length st.request).ensureHeadersParsed.headers
  · exact (if_pos hover).trans (if_pos hover).symm
  · refine (if_neg hover).trans (Eq.trans ?_ (if_neg hover).symm)
    by_cases hs : s = []
    · have hall : p.length ≥ (p ++ s).length := by simp [hs]
      exact (if_pos hall).trans (if_pos hs).symm
    · have hlt : ¬ p.length ≥ (p ++ s).length := by
        have := List.length_pos_iff.mpr hs
        simp only [List.length_append]
        omega
      refine (if_neg hlt).trans (Eq.trans ?_ (if_neg hs).symm)
      rw [List.drop_left]
      rfl

include hll hp ht hin in
/-- **A request in a buffer of its own**, on a connection that holds nothing. -/
theorem channelRead_whole {buf : ByteBuf} (hbuf : buf.readable = p)
    (hidle : st.leftover.readable = []) (hstart : startsRequest p = true) :
    channelRead codec ll st (.buffer buf) =
      let req := t.attach p p.length st.request
      if t.TooLarge codec.maxHeaderSize then
        some (⟨st.request.setUri (substr p t.url.offset t.url.len), st.leftover.clear⟩,
          [.writeAndFlush headerTooLarge])
      else if codec.OverLimit req.ensureHeadersParsed.headers then
        some (⟨req.ensureHeadersParsed, st.leftover.clear⟩,
          noted req ++ [.writeAndFlush bodyTooLarge])
      else
        some (⟨{}, st.leftover.clear⟩,
          noted req ++ [.fireRead (.request req.ensureHeadersParsed)]) := by
  have hne : buf.readable ≠ [] := by
    rw [hbuf]
    exact List.ne_nil_of_length_pos (hll.length_pos hp)
  rw [channelRead_of_idle hne hidle (hbuf ▸ hstart), hbuf]
  by_cases hlarge : t.TooLarge codec.maxHeaderSize
  · have hloop := readLoop_tooLarge hll hp ht p.length st .caller [] hlarge
    rw [List.append_nil] at hloop
    simp only [hloop, if_pos hlarge]
  · have hloop := readLoop_complete hll hp ht hin p.length st .caller [] hlarge
    rw [List.append_nil] at hloop
    simp only [hloop, if_neg hlarge, if_true]

/-- **No whole request in front**: the bytes are kept. -/
theorem readLoop_unfinished {raw : Bytes} (hlimits : codec.maxHeaderSize = 0)
    (h : .messageComplete ∉ (ll.execute raw).callbacks) :
    readLoop codec ll (fuel + 1) st src raw =
      let req := (runCallbacks raw { req := st.request, maxHeaderSize := codec.maxHeaderSize }
        (ll.execute raw).callbacks).req
      if st.leftover.readableBytes = 0 then
        (src.store raw st.leftover).map fun leftover => (⟨req, leftover⟩, [])
      else some (⟨req, st.leftover⟩, []) := by
  obtain ⟨hmsg, hlarge, -⟩ := runCallbacks_unfinished h raw
    { req := st.request, maxHeaderSize := codec.maxHeaderSize }
  rw [readLoop]
  simp only [hmsg, hlarge hlimits, Bool.false_eq_true, if_false, not_false_eq_true, if_true]

end turn

end HttpServerCodec

end XNetty
