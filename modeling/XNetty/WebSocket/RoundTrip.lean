import XNetty.WebSocket.Codec

/-!
# Decoding undoes encoding

A stream of encoded frames, cut anywhere, gives back the messages that were sent.

## Main definitions

* `WebSocketCodec.Delivers` — which messages a sequence of frames stands for.
* `WebSocketCodec.parseFrame_wire` — the decoder on one encoded frame.
* `WebSocketCodec.readAll_encodeFrame` — the decoder on a stream.
-/

namespace XNetty

namespace WebSocketCodec

open Incremental WebSocketFrame

/-! ## One encoded frame -/

section wire

variable {f : WebSocketFrame}

/-- The header the parser finds in front of an encoded frame. -/
def wireHeader (f : WebSocketFrame) : FrameHeader :=
  ⟨f.fin, f.opcode, f.mask, f.header.length, f.payload.length⟩

theorem length_wire (f : WebSocketFrame) :
    f.wire.length = (wireHeader f).headerLen + (wireHeader f).payloadLen := by
  simp [wire, wireHeader]

/-- Four bytes read off a key are that key. -/
theorem key_of_toList (key : Vector UInt8 4) :
    #v[key.toList.getD 0 0, key.toList.getD 1 0, key.toList.getD 2 0, key.toList.getD 3 0] =
      key := by
  ext i hi
  interval_cases i <;> simp [List.getD]

/-- The payload is unmasked with the key in front of it. -/
theorem payloadOf_wire (f : WebSocketFrame) : payloadOf f.wire (wireHeader f) = f.payload := by
  have hbody : substr f.wire f.header.length f.payload.length = f.body := by
    rw [substr, wire, List.drop_left, ← length_body, List.take_length]
  unfold payloadOf wireHeader
  cases hm : f.mask with
  | false =>
    simp only [hbody, Bool.false_eq_true, if_false]
    simp [body, hm]
  | true =>
    have hkey : substr f.wire (f.header.length - 4) 4 = f.maskingKey.toList := by
      have hfield : f.keyField = f.maskingKey.toList := by simp [keyField, hm]
      have hsplit : f.wire = (f.firstByte :: f.lengthField) ++ (f.maskingKey.toList ++ f.body) := by
        simp [wire, header, hfield]
      have hlen : f.header.length - 4 = (f.firstByte :: f.lengthField).length := by
        simp [header, hfield]
      rw [substr, hsplit, hlen, List.drop_left]
      exact List.take_left' (by simp)
    simp only [hbody, hkey, key_of_toList, if_true]
    simp [body, hm]

theorem le_maxStringSize {n : ℕ} (h : n < 2 ^ 62) : n ≤ maxStringSize := by
  unfold maxStringSize
  omega

/-- **The decoder on an encoded frame**: it reads the frame that was encoded and consumes
it to its last byte. -/
theorem parseFrame_wire (st : Fragments) (hop : f.opcode.toUInt8.toNat < 16)
    (hsize : f.payload.length ≤ maxStringSize) :
    frameDecoder.parse st f.wire =
      (frameAction st (wireHeader f) f.payload).verdict st f.wire.length := by
  have hsize64 : f.payload.length < 2 ^ 64 := by
    unfold maxStringSize at hsize
    omega
  have hhead : parseHeader f.wire = some (wireHeader f) := by
    simpa [wireHeader] using parseHeader_wire hop hsize64 []
  have hstr : ¬ maxStringSize < (wireHeader f).payloadLen := not_lt.mpr hsize
  have hlen : ¬ f.wire.length <
      ((wireHeader f).headerLen + (wireHeader f).payloadLen) % sizeWrap := by
    rw [frame_length hhead hstr, length_wire]
    omega
  rw [length_wire, ← payloadOf_wire f]
  exact parseFrame_of_frame hhead hlen hstr

end wire

/-! ## Streams of frames -/

/-- A frame delivered as it came. -/
def whole (f : WebSocketFrame) : WebSocketFrame :=
  { opcode := f.opcode, fin := true, mask := f.mask, payload := f.payload }

/-- The messages a sequence of frames stands for. `pending` is the payload collected so far
of a binary message that has begun and not ended. -/
inductive Delivers : Option Bytes → List WebSocketFrame → List WebSocketFrame → Prop
  | nil : Delivers none [] []
  | control {p f fs out} : f.opcode = .ping ∨ f.opcode = .pong → f.fin →
      Delivers p fs out → Delivers p (f :: fs) (whole f :: out)
  | text {f fs out} : f.opcode = .text → f.fin → isValidUtf8 f.payload →
      Delivers none fs out → Delivers none (f :: fs) (whole f :: out)
  | binary {f fs out} : f.opcode = .binary → f.fin →
      Delivers none fs out → Delivers none (f :: fs) (whole f :: out)
  | first {f fs out} : f.opcode = .binary → f.fin = false →
      Delivers (some f.payload) fs out → Delivers none (f :: fs) out
  | middle {p f fs out} : f.opcode = .continuation → f.fin = false →
      Delivers (some (p ++ f.payload)) fs out → Delivers (some p) (f :: fs) out
  | last {p f fs out} : f.opcode = .continuation → f.fin →
      Delivers none fs out →
      Delivers (some p) (f :: fs)
        ({ opcode := .binary, fin := true, mask := f.mask, payload := p ++ f.payload } :: out)

/-- The reassembly state while `pending` is collected. -/
def Holds : Option Bytes → Fragments → Prop
  | none, st => st.fragmentPayload = []
  | some p, st => st.fragmentPayload = p ∧ st.fragmentOpcode = .binary

section action

variable {st : Fragments} {f : WebSocketFrame} {p : Bytes}

theorem frameAction_control (hop : f.opcode = .ping ∨ f.opcode = .pong) (hfin : f.fin) :
    frameAction st (wireHeader f) f.payload = .deliver st (whole f) := by
  rcases hop with hop | hop <;>
    simp [frameAction, wireHeader, whole, hop, hfin, WebSocketOpcode.ping, WebSocketOpcode.pong,
      WebSocketOpcode.text, WebSocketOpcode.continuation]

theorem frameAction_text (hop : f.opcode = .text) (hfin : f.fin)
    (hutf : isValidUtf8 f.payload) :
    frameAction st (wireHeader f) f.payload = .deliver st (whole f) := by
  simp [frameAction, wireHeader, whole, hop, hfin, hutf, WebSocketOpcode.text,
    WebSocketOpcode.continuation]

theorem frameAction_binary (hop : f.opcode = .binary) (hfin : f.fin) :
    frameAction st (wireHeader f) f.payload = .deliver st (whole f) := by
  simp [frameAction, wireHeader, whole, hop, hfin, WebSocketOpcode.binary,
    WebSocketOpcode.text, WebSocketOpcode.continuation]

theorem frameAction_first (hop : f.opcode = .binary) (hfin : f.fin = false) :
    frameAction st (wireHeader f) f.payload =
      .collect { fragmentPayload := f.payload, fragmentOpcode := .binary } := by
  simp [frameAction, wireHeader, hop, hfin, WebSocketOpcode.binary, WebSocketOpcode.text,
    WebSocketOpcode.continuation, WebSocketOpcode.close]

theorem frameAction_middle (hop : f.opcode = .continuation) (hfin : f.fin = false) :
    frameAction st (wireHeader f) f.payload =
      .collect { st with fragmentPayload := st.fragmentPayload ++ f.payload } := by
  simp [frameAction, wireHeader, hop, hfin, WebSocketOpcode.text, WebSocketOpcode.continuation,
    WebSocketOpcode.close]

theorem frameAction_last (hop : f.opcode = .continuation) (hfin : f.fin) :
    frameAction st (wireHeader f) f.payload =
      .deliver { st with fragmentPayload := [] }
        { opcode := st.fragmentOpcode, fin := true, mask := f.mask,
          payload := st.fragmentPayload ++ f.payload } := by
  simp [frameAction, wireHeader, hop, hfin, WebSocketOpcode.text, WebSocketOpcode.continuation]

end action

section drain

variable {st next : Fragments} {f g : WebSocketFrame} (hop : f.opcode.toUInt8.toNat < 16)
  (hsize : f.payload.length ≤ maxStringSize)
include hop hsize

/-- A frame that is kept. -/
theorem passes_collect (hact : frameAction st (wireHeader f) f.payload = .collect next) :
    frameDecoder.Passes st f.wire next [] := by
  have hparse := parseFrame_wire st hop hsize
  rw [hact] at hparse
  exact .message hparse

/-- A frame that is delivered. -/
theorem passes_deliver (hact : frameAction st (wireHeader f) f.payload = .deliver next g)
    (hclose : g.opcode ≠ .close) : frameDecoder.Passes st f.wire next [g] := by
  have hparse := parseFrame_wire st hop hsize
  rw [hact, FrameAction.verdict, if_neg hclose] at hparse
  exact .message hparse

/-- A frame that is kept, in front of the rest of the stream. -/
theorem drain_collect (hact : frameAction st (wireHeader f) f.payload = .collect next)
    (tail : Bytes) : frameDecoder.drain st (f.wire ++ tail) = frameDecoder.drain next tail :=
  passes_collect hop hsize hact tail

/-- A frame that is delivered, in front of the rest of the stream. -/
theorem drain_deliver (hact : frameAction st (wireHeader f) f.payload = .deliver next g)
    (hclose : g.opcode ≠ .close) (tail : Bytes) :
    frameDecoder.drain st (f.wire ++ tail) =
      { frameDecoder.drain next tail with out := g :: (frameDecoder.drain next tail).out } :=
  passes_deliver hop hsize hact hclose tail

end drain

/-- **Draining an encoded stream** gives its messages and leaves nothing. -/
theorem drain_stream {p : Option Bytes} {fs out : List WebSocketFrame} (h : Delivers p fs out)
    {st : Fragments} (hst : Holds p st) (hsize : ∀ f ∈ fs, f.payload.length < 2 ^ 62) :
    let d := frameDecoder.drain st (fs.map wire).flatten
    d.out = out ∧ d.rest = [] ∧ d.dropped = [] ∧ d.state.fragmentPayload = [] := by
  induction h generalizing st with
  | nil => simpa [Holds] using hst
  | @control p f fs out hop hfin _ ih =>
    have hlt : f.opcode.toUInt8.toNat < 16 := by rcases hop with hop | hop <;> rw [hop] <;> decide
    have hclose : (whole f).opcode ≠ .close := by
      rcases hop with hop | hop <;> simp only [whole, hop] <;> decide
    obtain ⟨hout, hrest⟩ := ih hst fun g hg => hsize g (List.mem_cons_of_mem _ hg)
    rw [List.map_cons, List.flatten_cons,
      drain_deliver hlt (le_maxStringSize (hsize f (by simp))) (frameAction_control hop hfin)
        hclose]
    exact ⟨congrArg _ hout, hrest⟩
  | @text f fs out hop hfin hutf _ ih =>
    have hclose : (whole f).opcode ≠ .close := by simp only [whole, hop]; decide
    obtain ⟨hout, hrest⟩ := ih hst fun g hg => hsize g (List.mem_cons_of_mem _ hg)
    rw [List.map_cons, List.flatten_cons, drain_deliver (by rw [hop]; decide)
      (le_maxStringSize (hsize f (by simp))) (frameAction_text hop hfin hutf) hclose]
    exact ⟨congrArg _ hout, hrest⟩
  | @binary f fs out hop hfin _ ih =>
    have hclose : (whole f).opcode ≠ .close := by simp only [whole, hop]; decide
    obtain ⟨hout, hrest⟩ := ih hst fun g hg => hsize g (List.mem_cons_of_mem _ hg)
    rw [List.map_cons, List.flatten_cons, drain_deliver (by rw [hop]; decide)
      (le_maxStringSize (hsize f (by simp))) (frameAction_binary hop hfin) hclose]
    exact ⟨congrArg _ hout, hrest⟩
  | @first f fs out hop hfin _ ih =>
    rw [List.map_cons, List.flatten_cons, drain_collect (by rw [hop]; decide)
      (le_maxStringSize (hsize f (by simp))) (frameAction_first hop hfin)]
    exact ih ⟨rfl, rfl⟩ fun g hg => hsize g (List.mem_cons_of_mem _ hg)
  | @middle p f fs out hop hfin _ ih =>
    rw [List.map_cons, List.flatten_cons, drain_collect (by rw [hop]; decide)
      (le_maxStringSize (hsize f (by simp))) (frameAction_middle hop hfin), hst.1]
    exact ih ⟨rfl, hst.2⟩ fun g hg => hsize g (List.mem_cons_of_mem _ hg)
  | @last p f fs out hop hfin _ ih =>
    have hact : frameAction st (wireHeader f) f.payload = _ := frameAction_last hop hfin
    rw [hst.1, hst.2] at hact
    obtain ⟨hout, hrest⟩ := ih
      (show Holds none { fragmentPayload := [], fragmentOpcode := .binary } from rfl)
      fun g hg => hsize g (List.mem_cons_of_mem _ hg)
    rw [List.map_cons, List.flatten_cons, drain_deliver (by rw [hop]; decide)
      (le_maxStringSize (hsize f (by simp))) hact (show WebSocketOpcode.binary ≠ .close by decide)]
    exact ⟨congrArg _ hout, hrest⟩

/-- **Decoding undoes encoding under every segmentation.** The frames of any sequence of
messages, encoded, concatenated and cut into non-empty buffers, are fired as one frame per
control frame and per message, in the order in which the messages end; nothing is kept. -/
theorem readAll_encodeFrame {fs out : List WebSocketFrame} (hfs : Delivers none fs out)
    (hsize : ∀ f ∈ fs, f.payload.length < 2 ^ 62) {bufs : List ByteBuf}
    (hbufs : ∀ b ∈ bufs, b.readable ≠ [])
    (hcut : (bufs.map ByteBuf.readable).flatten =
      (fs.map fun f => (encodeFrame f).readable).flatten) :
    (readAll .fresh bufs).2 = out.map .frame ∧
    (readAll .fresh bufs).1.leftover.readable = [] ∧
    (readAll .fresh bufs).1.fragmentPayload = [] := by
  simp only [readable_encodeFrame] at hcut
  obtain ⟨hout, hrest, hdrop, hpending⟩ :=
    drain_stream hfs (show Holds none CodecState.fresh.toFragments from rfl) hsize
  obtain ⟨hfired, hstate, hleft⟩ := readAll_eq_drain hbufs hcut rfl hdrop
  exact ⟨by rw [hfired, hout], by rw [hleft, hrest], by rw [hstate, hpending]⟩

/-- A buffer holding `xs`. -/
def bufferOf (xs : Bytes) : ByteBuf := ByteBuf.empty.writeBytes xs

/-- A binary message in two fragments with a masked ping between them, cut inside the first
header, inside the ping's masking key and before the last byte. -/
theorem readAll_encodeFrame_fragments :
    (readAll .fresh [bufferOf [0x02], bufferOf [0x01, 0x61, 0x89, 0x81, 1, 2],
      bufferOf [3, 4, 0x71, 0x80, 0x01], bufferOf [0x62]]).2 =
      [.frame { opcode := .ping, mask := true, payload := [0x70] },
        .frame { opcode := .binary, payload := [0x61, 0x62] }] ∧
    (readAll .fresh [bufferOf [0x02], bufferOf [0x01, 0x61, 0x89, 0x81, 1, 2],
      bufferOf [3, 4, 0x71, 0x80, 0x01], bufferOf [0x62]]).1.leftover.readable = [] ∧
    (readAll .fresh [bufferOf [0x02], bufferOf [0x01, 0x61, 0x89, 0x81, 1, 2],
      bufferOf [3, 4, 0x71, 0x80, 0x01], bufferOf [0x62]]).1.fragmentPayload = [] :=
  @readAll_encodeFrame
    [{ opcode := .binary, fin := false, payload := [0x61] },
      { opcode := .ping, mask := true, maskingKey := #v[1, 2, 3, 4], payload := [0x70] },
      { opcode := .continuation, payload := [0x62] }] _
    (.first rfl rfl (.control (.inl rfl) rfl (.last rfl rfl .nil)))
    (by decide) _ (by decide) (by decide)

end WebSocketCodec

end XNetty
