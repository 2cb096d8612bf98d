import XNetty.Lib.Incremental
import XNetty.Channel.Message

/-!
# The inbound half of the WebSocket codec

`channelRead` is the loop of the source over the arriving buffer, with its leftover
storage. `frameDecoder` is one turn of that loop as an incremental decoder on bytes;
`channelRead_eq_drain` says the loop drains it. The decoder's laws then carry over.

## Main definitions

* `WebSocketCodec.channelRead` — the handler.
* `WebSocketCodec.frameDecoder` — the decoder it implements.
* `WebSocketCodec.readAll` — a connection receiving one buffer after the other.
-/

namespace XNetty

namespace WebSocketCodec

/-- The message under reassembly. -/
structure Fragments where
  fragmentPayload : Bytes := []
  fragmentOpcode : WebSocketOpcode := .text
  deriving DecidableEq

structure CodecState extends Fragments where
  leftover : ByteBuf := .empty

/-- The state of a connection the codec has not seen before. -/
def CodecState.fresh : CodecState := {}

/-- `size_t` arithmetic wraps here. -/
def sizeWrap : ℕ := 2 ^ 64

/-- No `std::string` is longer than `PTRDIFF_MAX`; asking for more throws. -/
def maxStringSize : ℕ := 2 ^ 63 - 1

/-- The payload string, unmasked in place. -/
def payloadOf (raw : Bytes) (h : FrameHeader) : Bytes :=
  let payload := substr raw h.headerLen h.payloadLen
  if h.masked then
    let key := substr raw (h.headerLen - 4) 4
    applyMask #v[key.getD 0 0, key.getD 1 0, key.getD 2 0, key.getD 3 0] payload
  else payload

/-- What `channelRead` does with a frame whose payload is complete. -/
inductive FrameAction where
  /-- Return with the frame still in the buffer. -/
  | refuse
  /-- Keep the payload and go on behind the frame. -/
  | collect (next : Fragments)
  /-- Fire a frame. -/
  | deliver (next : Fragments) (frame : WebSocketFrame)
  deriving DecidableEq

def frameAction (st : Fragments) (h : FrameHeader) (payload : Bytes) : FrameAction :=
  if h.opcode.toUInt8 ≥ WebSocketOpcode.close.toUInt8 ∧ ¬ h.fin then .refuse
  else if h.opcode = .text ∧ isValidUtf8 payload = false then .refuse
  else if h.opcode = .continuation then
    let fragmentPayload := st.fragmentPayload ++ payload
    if h.fin then
      .deliver { st with fragmentPayload := [] }
        { opcode := st.fragmentOpcode, fin := true, mask := h.masked, payload := fragmentPayload }
    else .collect { st with fragmentPayload := fragmentPayload }
  else if ¬ h.fin then .collect { fragmentPayload := payload, fragmentOpcode := h.opcode }
  else .deliver st { opcode := h.opcode, fin := true, mask := h.masked, payload := payload }

/-- What one call of `channelRead` leaves behind. `thrown` is the `std::length_error` of
the payload string. -/
structure ReadResult where
  state : CodecState
  buf : ByteBuf
  fired : List WebSocketFrame := []
  thrown : Bool := false

/-- The loop over the buffer. Every turn that goes on discards a frame, so as many turns
as there are bytes suffice. -/
def readLoop : ℕ → CodecState → ByteBuf → ReadResult
  | 0, st, buf => { state := st, buf := buf.clear }
  | fuel + 1, st, buf =>
    if buf.readableBytes = 0 then { state := st, buf := buf.clear }
    else
      let raw := buf.readable
      let len := buf.readableBytes
      let keep : ReadResult :=
        { state := { st with leftover := st.leftover.writeBytes raw }, buf := buf.clear }
      match parseHeader raw with
      | none => keep
      | some h =>
        if len < (h.headerLen + h.payloadLen) % sizeWrap then keep
        else if maxStringSize < h.payloadLen then { state := st, buf := buf, thrown := true }
        else
          match frameAction st.toFragments h (payloadOf raw h) with
          | .refuse => { state := st, buf := buf }
          | .collect next =>
            readLoop fuel { st with toFragments := next } (buf.discard (h.headerLen + h.payloadLen))
          | .deliver next frame =>
            let st := { st with toFragments := next }
            if frame.opcode = .close then { state := st, buf := buf, fired := [frame] }
            else
              let r := readLoop fuel st (buf.discard (h.headerLen + h.payloadLen))
              { r with fired := frame :: r.fired }

/-- `channelRead` on a `ByteBuf*` with readable bytes. -/
def readBuffer (st : CodecState) (buf : ByteBuf) : ReadResult :=
  if st.leftover.readableBytes > 0 then
    let leftover := st.leftover.writeBytes buf.readable
    let buf := (buf.clear.writeBytes leftover.readable).setReaderIndex 0 (Nat.zero_le _)
    readLoop buf.readableBytes { st with leftover := leftover.clear } buf
  else readLoop buf.readableBytes st buf

/-- `WebSocketCodec::channelRead`: the state it leaves and what it fires. -/
def channelRead (st : CodecState) : Msg → CodecState × List Msg
  | .buffer buf =>
    if buf.readableBytes = 0 then (st, [.buffer buf])
    else
      let r := readBuffer st buf
      (r.state, r.fired.map .frame)
  | msg => (st, [msg])

/-- One buffer after the other on one connection. -/
def readAll (st : CodecState) : List ByteBuf → CodecState × List Msg
  | [] => (st, [])
  | buf :: rest =>
    let r := channelRead st (.buffer buf)
    let t := readAll r.1 rest
    (t.1, r.2 ++ t.2)

/-! ## The decoder -/

open Incremental

/-- The decoder's verdict on a complete frame of `n` bytes. -/
def FrameAction.verdict (st : Fragments) (n : ℕ) : FrameAction → Verdict Fragments WebSocketFrame
  | .refuse => .halt n st []
  | .collect next => .done n next []
  | .deliver next frame =>
    if frame.opcode = .close then .halt n next [frame] else .done n next [frame]

/-- One turn of the loop on the bytes at the front of the buffer. -/
def parseFrame (st : Fragments) (raw : Bytes) : Verdict Fragments WebSocketFrame :=
  match parseHeader raw with
  | none => .more
  | some h =>
    if raw.length < (h.headerLen + h.payloadLen) % sizeWrap then .more
    else if maxStringSize < h.payloadLen then .halt h.headerLen st []
    else (frameAction st h (payloadOf raw h)).verdict st (h.headerLen + h.payloadLen)

theorem FrameAction.verdict_consumes {st next : Fragments} {n k : ℕ} {a : FrameAction}
    {out : List WebSocketFrame}
    (h : a.verdict st n = .done k next out ∨ a.verdict st n = .halt k next out) : k = n := by
  cases a with
  | refuse => simp [verdict] at h; exact h.1.symm
  | collect s => simp [verdict] at h; exact h.1.symm
  | deliver s frame =>
    simp only [verdict] at h
    split at h <;> simp at h <;> exact h.1.symm

/-- Below the string limit the sum of the two lengths does not wrap. -/
theorem frame_length {raw : Bytes} {h : FrameHeader} (hh : parseHeader raw = some h)
    (hstr : ¬ maxStringSize < h.payloadLen) :
    (h.headerLen + h.payloadLen) % sizeWrap = h.headerLen + h.payloadLen := by
  have := parseHeader_bounds hh
  unfold maxStringSize at hstr
  unfold sizeWrap
  omega

theorem payloadOf_append {raw : Bytes} {h : FrameHeader} (hh : parseHeader raw = some h)
    (hlen : h.headerLen + h.payloadLen ≤ raw.length) (ys : Bytes) :
    payloadOf (raw ++ ys) h = payloadOf raw h := by
  unfold payloadOf
  rw [substr_append hlen]
  split
  next hmask =>
    have hkey := (parseHeader_bounds hh).2.2.2 hmask
    rw [substr_append (by omega)]
  next => rfl

section verdict

variable {st next : Fragments} {raw : Bytes} {h : FrameHeader} (hh : parseHeader raw = some h)
include hh

theorem parseFrame_of_short (hlen : raw.length < (h.headerLen + h.payloadLen) % sizeWrap) :
    parseFrame st raw = .more := by
  simp only [parseFrame, hh, if_pos hlen]

theorem parseFrame_of_huge (hlen : ¬ raw.length < (h.headerLen + h.payloadLen) % sizeWrap)
    (hstr : maxStringSize < h.payloadLen) : parseFrame st raw = .halt h.headerLen st [] := by
  simp only [parseFrame, hh, if_neg hlen, if_pos hstr]

theorem parseFrame_of_frame (hlen : ¬ raw.length < (h.headerLen + h.payloadLen) % sizeWrap)
    (hstr : ¬ maxStringSize < h.payloadLen) :
    parseFrame st raw =
      (frameAction st h (payloadOf raw h)).verdict st (h.headerLen + h.payloadLen) := by
  simp only [parseFrame, hh, if_neg hlen, if_neg hstr]

end verdict

/-- A verdict consumes something, and never more than the buffer holds. -/
theorem parseFrame_bounds {st next : Fragments} {raw : Bytes} {n : ℕ}
    {out : List WebSocketFrame}
    (hv : parseFrame st raw = .done n next out ∨ parseFrame st raw = .halt n next out) :
    0 < n ∧ n ≤ raw.length := by
  cases hh : parseHeader raw with
  | none => simp [parseFrame, hh] at hv
  | some h =>
    have hb := parseHeader_bounds hh
    by_cases hlen : raw.length < (h.headerLen + h.payloadLen) % sizeWrap
    · simp [parseFrame_of_short hh hlen] at hv
    · by_cases hstr : maxStringSize < h.payloadLen
      · simp [parseFrame_of_huge hh hlen hstr] at hv
        omega
      · rw [parseFrame_of_frame hh hlen hstr] at hv
        rw [frame_length hh hstr] at hlen
        have hn := FrameAction.verdict_consumes hv
        omega

/-- A verdict stays the same when bytes arrive behind it. -/
theorem parseFrame_stable {st : Fragments} {raw : Bytes} (ys : Bytes)
    (hv : parseFrame st raw ≠ .more) : parseFrame st (raw ++ ys) = parseFrame st raw := by
  cases hh : parseHeader raw with
  | none => simp [parseFrame, hh] at hv
  | some h =>
    have hh' := parseHeader_append hh ys
    by_cases hlen : raw.length < (h.headerLen + h.payloadLen) % sizeWrap
    · exact absurd (parseFrame_of_short hh hlen) hv
    · have hlen' : ¬ (raw ++ ys).length < (h.headerLen + h.payloadLen) % sizeWrap := by
        rw [List.length_append]
        omega
      by_cases hstr : maxStringSize < h.payloadLen
      · rw [parseFrame_of_huge hh hlen hstr, parseFrame_of_huge hh' hlen' hstr]
      · rw [parseFrame_of_frame hh hlen hstr, parseFrame_of_frame hh' hlen' hstr]
        rw [frame_length hh hstr] at hlen
        rw [payloadOf_append hh (by omega)]

/-- One turn of the loop, as an incremental decoder. -/
def frameDecoder : Decoder UInt8 Fragments WebSocketFrame where
  parse := parseFrame
  parse_nil _ := rfl
  done_bounds h := parseFrame_bounds (.inl h)
  halt_bound h := (parseFrame_bounds (.inr h)).2
  stable ys h := parseFrame_stable ys h

/-! ## The loop drains the decoder -/

/-- What a call leaves behind, in terms of the decoder: `keep` is what the leftover
held before. -/
def ReadResult.Drains (r : ReadResult) (keep : Bytes)
    (d : Drained UInt8 Fragments WebSocketFrame) : Prop :=
  r.fired = d.out ∧ r.state.toFragments = d.state ∧ r.state.leftover.readable = keep ++ d.rest

/-- **One turn of the loop** follows the decoder's verdict. Where the decoder gives up, the bytes
stay in the buffer. -/
theorem readLoop_turn (fuel : ℕ) (st : CodecState) (buf : ByteBuf) (hne : buf.readableBytes ≠ 0) :
    match parseFrame st.toFragments buf.readable with
    | .more => readLoop (fuel + 1) st buf =
        { state := { st with leftover := st.leftover.writeBytes buf.readable }, buf := buf.clear }
    | .halt _ next out => ∃ thrown, readLoop (fuel + 1) st buf =
        { state := { st with toFragments := next }, buf, fired := out, thrown }
    | .done n next out =>
      let r := readLoop fuel { st with toFragments := next } (buf.discard n)
      readLoop (fuel + 1) st buf = { r with fired := out ++ r.fired } := by
  simp only [readLoop, if_neg hne]
  simp only [← ByteBuf.length_readable]
  cases hh : parseHeader buf.readable with
  | none => simp only [parseFrame, hh]
  | some h =>
    dsimp only
    by_cases hlen : buf.readable.length < (h.headerLen + h.payloadLen) % sizeWrap
    · rw [parseFrame_of_short hh hlen, if_pos hlen]
    by_cases hstr : maxStringSize < h.payloadLen
    · rw [parseFrame_of_huge hh hlen hstr, if_neg hlen, if_pos hstr]
      exact ⟨true, rfl⟩
    rw [parseFrame_of_frame hh hlen hstr, if_neg hlen, if_neg hstr]
    cases frameAction st.toFragments h (payloadOf buf.readable h) with
    | refuse => exact ⟨false, rfl⟩
    | collect next => rfl
    | deliver next frame =>
      by_cases hclose : frame.opcode = .close
      · simp only [FrameAction.verdict, if_pos hclose]
        exact ⟨false, rfl⟩
      · simp only [FrameAction.verdict, if_neg hclose]
        rfl

/-- A verdict that goes on leaves fewer bytes than there were. -/
theorem readableBytes_discard_le {st next : Fragments} {buf : ByteBuf} {n fuel : ℕ}
    {out : List WebSocketFrame} (hdone : parseFrame st buf.readable = .done n next out)
    (hfuel : buf.readableBytes ≤ fuel + 1) : (buf.discard n).readableBytes ≤ fuel := by
  have hn := parseFrame_bounds (.inl hdone)
  rw [← ByteBuf.length_readable, ByteBuf.readable_discard, List.length_drop]
  rw [← ByteBuf.length_readable] at hfuel
  omega

/-- **The loop over the buffer is the decoder's drain**: it fires what the decoder gives
out, and what the decoder keeps goes behind the leftover. -/
theorem readLoop_drains (fuel : ℕ) (st : CodecState) (buf : ByteBuf)
    (hfuel : buf.readableBytes ≤ fuel) :
    (readLoop fuel st buf).Drains st.leftover.readable
      (frameDecoder.drain st.toFragments buf.readable) := by
  induction fuel generalizing st buf with
  | zero =>
    have hnil : buf.readable = [] := (ByteBuf.readable_eq_nil_iff _).mpr (by omega)
    simp [hnil, readLoop, ReadResult.Drains]
  | succ fuel ih =>
    by_cases hzero : buf.readableBytes = 0
    · have hnil : buf.readable = [] := (ByteBuf.readable_eq_nil_iff _).mpr hzero
      simp [hnil, readLoop, hzero, ReadResult.Drains]
    have hturn := readLoop_turn fuel st buf hzero
    cases hparse : parseFrame st.toFragments buf.readable with
    | more =>
      rw [hparse] at hturn
      rw [hturn, Decoder.drain_of_more hparse]
      simp [ReadResult.Drains]
    | halt n next out =>
      rw [hparse] at hturn
      obtain ⟨thrown, hturn⟩ := hturn
      rw [hturn, Decoder.drain_of_halt hparse]
      simp [ReadResult.Drains]
    | done n next out =>
      rw [hparse] at hturn
      rw [hturn, Decoder.drain_of_done hparse]
      simpa [ReadResult.Drains] using
        ih { st with toFragments := next } _ (readableBytes_discard_le hparse hfuel)

/-- One arriving buffer goes through the loop behind the leftover. -/
theorem readBuffer_eq (st : CodecState) (buf : ByteBuf) :
    ∃ (leftover buf' : ByteBuf), leftover.readable = [] ∧
      buf'.readable = st.leftover.readable ++ buf.readable ∧
      readBuffer st buf = readLoop buf'.readableBytes { st with leftover } buf' := by
  unfold readBuffer
  split
  next h =>
    have hset : ∀ xs : Bytes, (buf.clear.writeBytes xs).setReaderIndex 0 (Nat.zero_le _) =
        buf.clear.writeBytes xs :=
      fun xs => ByteBuf.setReaderIndex_self _ (ByteBuf.readerIndex_writeBytes buf.clear xs)
    simp only [hset]
    exact ⟨_, _, ByteBuf.readable_clear _, by simp, rfl⟩
  next h =>
    have hnil : st.leftover.readable = [] := (ByteBuf.readable_eq_nil_iff _).mpr (by omega)
    exact ⟨st.leftover, buf, hnil, by rw [hnil, List.nil_append], rfl⟩

/-- One arriving buffer: the decoder sees the leftover with the new bytes behind it. -/
theorem readBuffer_drains (st : CodecState) (buf : ByteBuf) :
    (readBuffer st buf).Drains []
      (frameDecoder.drain st.toFragments (st.leftover.readable ++ buf.readable)) := by
  obtain ⟨leftover, buf', hleft, hbuf, heq⟩ := readBuffer_eq st buf
  have hloop := readLoop_drains _ { st with leftover } buf' le_rfl
  rwa [hleft, hbuf, ← heq] at hloop

/-- **A connection receiving buffers is the decoder fed their contents.** -/
theorem readAll_eq_feedAll (st : CodecState) (bufs : List ByteBuf)
    (hbufs : ∀ b ∈ bufs, b.readable ≠ []) :
    let r := readAll st bufs
    let d := frameDecoder.feedAll st.toFragments st.leftover.readable (bufs.map ByteBuf.readable)
    r.2 = d.out.map .frame ∧ r.1.toFragments = d.state ∧ r.1.leftover.readable = d.rest := by
  induction bufs generalizing st with
  | nil => simp [readAll, Decoder.feedAll]
  | cons b bufs ih =>
    have hb : b.readableBytes ≠ 0 := fun h =>
      hbufs b (by simp) ((ByteBuf.readable_eq_nil_iff _).mpr h)
    obtain ⟨hfired, hstate, hleft⟩ := readBuffer_drains st b
    obtain ⟨hfired', hstate', hleft'⟩ :=
      ih (readBuffer st b).state fun c hc => hbufs c (List.mem_cons_of_mem _ hc)
    rw [hstate, hleft, List.nil_append] at hfired' hstate' hleft'
    simp only [readAll, channelRead, if_neg hb, List.map_cons, Decoder.feedAll, List.map_append]
    exact ⟨by rw [hfired', hfired], hstate', hleft'⟩

/-- **The frames a connection delivers do not depend on the cutting**, unless frames stand
behind one at which the codec gives up. -/
theorem readAll_eq_drain {st : CodecState} {bufs : List ByteBuf} {stream : Bytes}
    (hbufs : ∀ b ∈ bufs, b.readable ≠ []) (hstream : (bufs.map ByteBuf.readable).flatten = stream)
    (hleft : st.leftover.readable = [])
    (hdrop : (frameDecoder.drain st.toFragments stream).dropped = []) :
    let r := readAll st bufs
    let d := frameDecoder.drain st.toFragments stream
    r.2 = d.out.map .frame ∧ r.1.toFragments = d.state ∧ r.1.leftover.readable = d.rest := by
  have hfeed := readAll_eq_feedAll st bufs hbufs
  subst hstream
  rw [hleft, Decoder.feedAll_eq_drain (by simpa using hbufs) rfl (by simpa using hdrop)] at hfeed
  simpa using hfeed

end WebSocketCodec

end XNetty
