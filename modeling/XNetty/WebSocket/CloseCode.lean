import XNetty.WebSocket.Conversation
import XNetty.WebSocket.RoundTrip

/-!
# Close codes

`WebSocket::close` packs the code in front of the reason, and the codec carries the payload over
as it is. The handler on the other side does not unpack it.

## Main definitions

* `WebSocketHandler.channelReadAll` — the handler on one message after the other.
* `WebSocketHandler.onCloses` — the calls of `onClose`.
* `WebSocketHandler.onCloses_closeFrame` — what a close on one side has `onClose` called with.
-/

namespace XNetty

open WebSocketCodec Conversation

namespace WebSocketCodec

/-- **A CLOSE frame** ends the drain with itself. -/
theorem drain_close {f : WebSocketFrame} (hop : f.opcode = .close) (hfin : f.fin)
    (hsize : f.payload.length ≤ maxStringSize) (st : Fragments) :
    (frameDecoder.drain st f.wire).out = [whole f] ∧
      (frameDecoder.drain st f.wire).dropped = [] := by
  have hact : frameAction st (wireHeader f) f.payload = .deliver st (whole f) := by
    simp [frameAction, wireHeader, whole, hop, hfin, WebSocketOpcode.close, WebSocketOpcode.text,
      WebSocketOpcode.continuation]
  have hparse := parseFrame_wire st (f := f) (by rw [hop]; decide) hsize
  rw [hact, FrameAction.verdict, if_pos (show (whole f).opcode = .close from hop)] at hparse
  rw [Incremental.Decoder.drain_of_halt hparse]
  exact ⟨rfl, List.drop_length⟩

end WebSocketCodec

namespace WebSocketHandler

variable (handler : WebSocketHandler)

/-- The messages of a connection reach the handler one after the other. -/
def channelReadAll (s : Session) : List Msg → Session × List WsEffect
  | [] => (s, [])
  | msg :: msgs => andThen (handler.channelRead s msg) fun s => channelReadAll s msgs

/-- The code and the reason that `onClose` is called with. -/
def onCloseOf : WsEffect → Option (ℕ × Bytes)
  | .onClose code reason => some (code, reason)
  | _ => none

def onCloses (es : List WsEffect) : List (ℕ × Bytes) := es.filterMap onCloseOf

theorem onCloses_filter_talks (es : List WsEffect) : onCloses (es.filter Talks) = onCloses es := by
  rw [onCloses, List.filterMap_filter]
  refine List.filterMap_congr fun e _ => ?_
  cases e <;> rfl

/-- The handler passes the payload of a CLOSE frame on as the reason, and `0` as the code. -/
theorem onCloses_channelRead {frame : WebSocketFrame} (hop : frame.opcode = .close) (s : Session) :
    onCloses (handler.channelRead s (.frame frame)).2 = [(0, frame.payload)] := by
  rw [← onCloses_filter_talks, talks_channelRead]
  have hanswer : onCloses (answer frame) = [(0, frame.payload)] := by
    simp [answer, hop, onCloses, List.filterMap_cons, onCloseOf, WebSocketOpcode.close,
      WebSocketOpcode.ping, WebSocketOpcode.text, WebSocketOpcode.binary]
  rw [onCloses, List.filterMap_append]
  cases s.ws.opened <;> simpa [List.filterMap_cons, onCloseOf, onCloses] using hanswer

/-- A `close` on one side, encoded, cut into buffers and decoded, has `onClose` on the other side
called once, with the code in the reason. -/
theorem onCloses_closeFrame (s : Session) (code : UInt16) (reason : Bytes)
    (hreason : reason.length + 2 ≤ maxStringSize) (mask : Bool) (key : Vector UInt8 4)
    {st : CodecState} (hleft : st.leftover.readable = []) {bufs : List ByteBuf}
    (hbufs : ∀ b ∈ bufs, b.readable ≠ [])
    (hcut : (bufs.map ByteBuf.readable).flatten =
      (encodeFrame { closeFrame code reason with mask, maskingKey := key }).readable) :
    onCloses (handler.channelReadAll s (readAll st bufs).2).2 =
      [(0, (code >>> 8).toUInt8 :: code.toUInt8 :: reason)] := by
  rw [readable_encodeFrame] at hcut
  obtain ⟨hout, hdrop⟩ := drain_close (f := { closeFrame code reason with mask, maskingKey := key })
    rfl rfl hreason st.toFragments
  obtain ⟨hfired, -, -⟩ := readAll_eq_drain hbufs hcut hleft hdrop
  rw [hfired, hout]
  simp only [List.map_cons, List.map_nil, channelReadAll, andThen, List.append_nil]
  exact handler.onCloses_channelRead rfl s

/-- **The code does not survive the wire**, nor does the reason, whatever they are. -/
theorem onCloses_ne_close (s : Session) (code : UInt16) (reason : Bytes)
    (hreason : reason.length + 2 ≤ maxStringSize) (mask : Bool) (key : Vector UInt8 4)
    {st : CodecState} (hleft : st.leftover.readable = []) {bufs : List ByteBuf}
    (hbufs : ∀ b ∈ bufs, b.readable ≠ [])
    (hcut : (bufs.map ByteBuf.readable).flatten =
      (encodeFrame { closeFrame code reason with mask, maskingKey := key }).readable) :
    onCloses (handler.channelReadAll s (readAll st bufs).2).2 ≠ [(code.toNat, reason)] := by
  rw [handler.onCloses_closeFrame s code reason hreason mask key hleft hbufs hcut]
  intro h
  have hlength := congrArg (fun calls => calls.map fun c => c.2.length) h
  simp only [List.map_cons, List.map_nil, List.length_cons, List.cons.injEq, and_true] at hlength
  omega

/-- `close(1000, "bye")`, masked and cut into two buffers. -/
theorem onCloses_ne_close_bye :
    onCloses ((create 30 10).channelReadAll {}
      (readAll .fresh
        [bufferOf [0x88, 0x85, 1, 2, 3], bufferOf [4, 2, 0xea, 0x61, 0x7d, 0x64]]).2).2
      ≠ [(1000, [0x62, 0x79, 0x65])] :=
  (create 30 10).onCloses_ne_close {} 1000 [0x62, 0x79, 0x65] (by decide) true #v[1, 2, 3, 4] rfl
    (by decide) (by decide)

/-- `close(1000, "bye")`, unmasked and in one buffer. -/
theorem not_onCloses_close_bye :
    onCloses ((create 30 10).channelReadAll {}
      (readAll .fresh [encodeFrame (closeFrame 1000 [0x62, 0x79, 0x65])]).2).2 ≠
      [(1000, [0x62, 0x79, 0x65])] := by
  decide +kernel

end WebSocketHandler

end XNetty
