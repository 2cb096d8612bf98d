import XNetty.WebSocket.RoundTrip

/-!
# Text messages

The codec checks that the payload of a `TEXT` frame is UTF-8, and not that of a message: the
first fragment is checked alone, the others not at all.

## Main definitions

* `TextMessage` — a text message and where it is split.
* `TextMessage.SentAs` — the frames that may carry it.
* `TextMessage.Respected` — what the codec fires is right, however the message is sent.
-/

namespace XNetty

namespace WebSocketCodec

open Incremental WebSocketFrame

/-- A text message, as the payload of its first frame and those of the continuation frames. -/
structure TextMessage where
  first : Bytes
  rest : List Bytes := []
  /-- It is a `std::string`. -/
  fits : (first ++ rest.flatten).length ≤ maxStringSize := by decide

/-- A control frame that may stand between fragments: whole, and no close. -/
structure Control (f : WebSocketFrame) : Prop where
  control : WebSocketOpcode.close.toUInt8 < f.opcode.toUInt8
  small : f.opcode.toUInt8.toNat < 16
  fin : f.fin = true
  fits : f.payload.length ≤ maxStringSize

/-- The frames behind the first one, for the payloads of the continuation frames. -/
inductive Continues : List Bytes → List WebSocketFrame → Prop
  | control {ps f fs} : Control f → Continues ps fs → Continues ps (f :: fs)
  | middle {f ps fs} : f.opcode = .continuation → f.fin = false → Continues ps fs →
      Continues (f.payload :: ps) (f :: fs)
  | last {f} : f.opcode = .continuation → f.fin = true → Continues [f.payload] [f]

namespace TextMessage

def payload (m : TextMessage) : Bytes := m.first ++ m.rest.flatten

/-- The frames that carry the message: with any masks, and control frames in between. -/
inductive SentAs (m : TextMessage) : List WebSocketFrame → Prop
  | whole {f} : f.opcode = .text → f.fin = true → f.payload = m.first → m.rest = [] →
      SentAs m [f]
  | fragments {f fs} : f.opcode = .text → f.fin = false → f.payload = m.first →
      Continues m.rest fs → SentAs m (f :: fs)

end TextMessage

/-- The payloads of the `TEXT` frames that are fired. -/
def textPayloads (msgs : List Msg) : List Bytes :=
  msgs.filterMap fun
    | .frame f => if f.opcode = .text then some f.payload else none
    | _ => none

@[simp] theorem textPayloads_append (msgs msgs' : List Msg) :
    textPayloads (msgs ++ msgs') = textPayloads msgs ++ textPayloads msgs' :=
  List.filterMap_append

theorem textPayloads_cons_text {f : WebSocketFrame} (h : f.opcode = .text) (msgs : List Msg) :
    textPayloads (.frame f :: msgs) = f.payload :: textPayloads msgs := by
  simp [textPayloads, h]

theorem textPayloads_cons_other {f : WebSocketFrame} (h : f.opcode ≠ .text) (msgs : List Msg) :
    textPayloads (.frame f :: msgs) = textPayloads msgs := by
  simp [textPayloads, h]

namespace TextMessage

/-- The text frames that a message makes the codec fire: the message if it is valid and nothing
equal to it otherwise, and nothing that is not valid. -/
structure Right (m : TextMessage) (own : List Bytes) : Prop where
  valid : isValidUtf8 m.payload = true → own = [m.payload]
  invalid : isValidUtf8 m.payload = false → m.payload ∉ own
  all_valid : ∀ p ∈ own, isValidUtf8 p = true

/-- **What is expected of the codec.** The message comes behind frames that the codec takes, and
anything may come behind it; the bytes are cut anywhere. -/
def Respected (m : TextMessage) : Prop :=
  ∀ (st : CodecState) (earlier later : Bytes) (next : Fragments) (out frames : List WebSocketFrame)
    (bufs : List ByteBuf), st.leftover.readable = [] →
    frameDecoder.Passes st.toFragments earlier next out → m.SentAs frames →
    (∀ b ∈ bufs, b.readable ≠ []) →
    (bufs.map ByteBuf.readable).flatten = earlier ++ (frames.map wire).flatten ++ later →
    ∃ own behind,
      textPayloads (readAll st bufs).2 = textPayloads (out.map .frame) ++ own ++ behind ∧
        (later = [] → behind = []) ∧ m.Right own

end TextMessage

/-! ### The frames of a message -/

section frames

variable (st : Fragments)

theorem Control.ne {f : WebSocketFrame} (hf : Control f) {op : WebSocketOpcode}
    (hop : ¬ WebSocketOpcode.close.toUInt8 < op.toUInt8) : f.opcode ≠ op := by
  rintro rfl
  exact hop hf.control

theorem Control.frameAction {f : WebSocketFrame} (hf : Control f) :
    frameAction st (wireHeader f) f.payload = .deliver st (whole f) := by
  have htext : f.opcode ≠ .text := hf.ne (by decide)
  have hcont : f.opcode ≠ .continuation := hf.ne (by decide)
  simp [WebSocketCodec.frameAction, wireHeader, whole, hf.fin, htext, hcont]

theorem Continues.ne_nil {ps : List Bytes} {fs : List WebSocketFrame} (h : Continues ps fs) :
    ps ≠ [] := by
  induction h with
  | control _ _ ih => exact ih
  | middle => exact List.cons_ne_nil _ _
  | last => exact List.cons_ne_nil _ _

/-- **The fragments behind the first one** complete the message, valid or not. -/
theorem Continues.passes {ps : List Bytes} {fs : List WebSocketFrame} (h : Continues ps fs)
    (hst : st.fragmentOpcode = .text) (hfits : ps.flatten.length ≤ maxStringSize) :
    ∃ next out, frameDecoder.Passes st (fs.map wire).flatten next out ∧
      textPayloads (out.map .frame) = [st.fragmentPayload ++ ps.flatten] := by
  induction h generalizing st with
  | @control ps f fs hf _ ih =>
    obtain ⟨next, out, hpasses, hout⟩ := ih st hst hfits
    have hfirst := passes_deliver hf.small hf.fits (hf.frameAction st) (hf.ne (by decide))
    refine ⟨next, _, hfirst.append hpasses, ?_⟩
    have hother : (whole f).opcode ≠ .text := hf.ne (by decide)
    rw [List.singleton_append, List.map_cons, textPayloads_cons_other hother, hout]
  | @middle f ps fs hop hfin _ ih =>
    rw [List.flatten_cons, List.length_append] at hfits
    obtain ⟨next, out, hpasses, hout⟩ :=
      ih { st with fragmentPayload := st.fragmentPayload ++ f.payload } hst (by omega)
    have hact : frameAction st (wireHeader f) f.payload = _ := frameAction_middle hop hfin
    have hfirst := passes_collect (by rw [hop]; decide) (by omega) hact
    refine ⟨next, _, hfirst.append hpasses, ?_⟩
    rw [List.nil_append, hout, List.flatten_cons, List.append_assoc]
  | @last f hop hfin =>
    rw [List.flatten_singleton] at hfits
    have hact : frameAction st (wireHeader f) f.payload = _ := frameAction_last hop hfin
    rw [hst] at hact
    have hpasses := passes_deliver (by rw [hop]; decide) hfits hact
      (show WebSocketOpcode.text ≠ .close by decide)
    refine ⟨_, _, by simpa using hpasses, ?_⟩
    rw [List.map_singleton, textPayloads_cons_text rfl, List.flatten_singleton]
    rfl

namespace TextMessage

variable {m : TextMessage} {frames : List WebSocketFrame}

/-- **A message whose first fragment is UTF-8** is delivered, valid or not. -/
theorem SentAs.passes (h : m.SentAs frames) (hfirst : isValidUtf8 m.first = true) :
    ∃ next out, frameDecoder.Passes st (frames.map wire).flatten next out ∧
      textPayloads (out.map .frame) = [m.payload] := by
  have hfits := m.fits
  rw [List.length_append] at hfits
  cases h with
  | @whole f hop hfin hpayload hrest =>
    rw [← hpayload] at hfirst hfits
    have htext : (WebSocketCodec.whole f).opcode = .text := hop
    have hact : frameAction st (wireHeader f) f.payload = _ := frameAction_text hop hfin hfirst
    have hpasses := passes_deliver (by rw [hop]; decide) (by omega) hact (by rw [htext]; decide)
    refine ⟨_, _, by simpa using hpasses, ?_⟩
    rw [List.map_singleton, textPayloads_cons_text htext, payload, hrest, ← hpayload]
    simp [textPayloads, WebSocketCodec.whole]
  | @fragments f fs hop hfin hpayload hrest =>
    rw [← hpayload] at hfirst hfits
    have hact : frameAction st (wireHeader f) f.payload =
        .collect { fragmentPayload := f.payload, fragmentOpcode := .text } := by
      simp [frameAction, wireHeader, hop, hfin, hfirst, WebSocketOpcode.text,
        WebSocketOpcode.continuation, WebSocketOpcode.close]
    have hpasses := passes_collect (by rw [hop]; decide) (by omega) hact
    obtain ⟨next, out, hfragments, hout⟩ :=
      hrest.passes { fragmentPayload := f.payload } rfl (by omega)
    refine ⟨next, _, hpasses.append hfragments, ?_⟩
    rw [List.nil_append, hout, payload, hpayload]

end TextMessage

/-- A text frame whose payload is not UTF-8 ends the buffer. -/
theorem parseFrame_refused {f : WebSocketFrame} (hop : f.opcode = .text)
    (hfits : f.payload.length ≤ maxStringSize) (hinvalid : isValidUtf8 f.payload = false) :
    frameDecoder.parse st f.wire = .halt f.wire.length st [] := by
  have hact : frameAction st (wireHeader f) f.payload = .refuse := by
    simp [frameAction, wireHeader, hop, hinvalid, WebSocketOpcode.text, WebSocketOpcode.close]
  rw [parseFrame_wire st (by rw [hop]; decide) hfits, hact]
  rfl

end frames

/-! ### What a connection fires -/

/-- **What the codec takes is fired first**, and nothing else if nothing comes behind it. -/
theorem readAll_of_passes {st : CodecState} {bufs : List ByteBuf} {taken later : Bytes}
    {next : Fragments} {out : List WebSocketFrame} (hleft : st.leftover.readable = [])
    (hpasses : frameDecoder.Passes st.toFragments taken next out)
    (hbufs : ∀ b ∈ bufs, b.readable ≠ [])
    (hcut : (bufs.map ByteBuf.readable).flatten = taken ++ later) :
    ∃ behind, textPayloads (readAll st bufs).2 = textPayloads (out.map .frame) ++ behind ∧
      (later = [] → behind = []) := by
  obtain ⟨hfired, -, -⟩ := readAll_eq_feedAll st bufs hbufs
  rw [hleft] at hfired
  obtain ⟨behind, hout, hnone⟩ := hpasses.feedAll (by simpa using hbufs)
    (frameDecoder.parse_nil _) hcut
  rw [hfired, hout, List.map_append, textPayloads_append]
  exact ⟨_, rfl, fun hlater => by rw [hnone hlater]; rfl⟩

/-- Some frames carry the fragments behind the first one. -/
theorem exists_continues {ps : List Bytes} (h : ps ≠ []) : ∃ fs, Continues ps fs := by
  induction ps with
  | nil => exact absurd rfl h
  | cons p ps ih =>
    by_cases hps : ps = []
    · subst hps
      exact ⟨_, @Continues.last { opcode := .continuation, payload := p } rfl rfl⟩
    · obtain ⟨fs, hfs⟩ := ih hps
      exact ⟨_, @Continues.middle { opcode := .continuation, fin := false, payload := p } _ _
        rfl rfl hfs⟩

theorem readable_bufferOf (xs : Bytes) : (bufferOf xs).readable = xs := by
  simp [bufferOf]

/-! ### A message inside a control frame -/

/-- The first fragment of an empty text message. -/
def begun : WebSocketFrame := { opcode := .text, fin := false }

/-- A last fragment that is not UTF-8. -/
def ended : WebSocketFrame := { opcode := .continuation, payload := [0xFF] }

/-- A ping with these two frames for its payload. -/
def echo : WebSocketFrame := { opcode := .ping, payload := [0x01, 0x00, 0x80, 0x01, 0xFF] }

theorem control_echo : Control echo where
  control := by decide
  small := by decide
  fin := rfl
  fits := by decide

theorem wire_echo : echo.wire = [0x89, 0x05] ++ (begun.wire ++ ended.wire) := by
  decide

/-- **The payload of the ping is read as frames** when the buffer before it ended inside it. -/
theorem textPayloads_echo {f : WebSocketFrame} (hop : f.opcode = .text)
    (hfits : f.payload.length ≤ maxStringSize) (hinvalid : isValidUtf8 f.payload = false)
    (tail : Bytes) : ∃ more, textPayloads (readAll .fresh [bufferOf (f.wire ++ [0x89, 0x05]),
      bufferOf (begun.wire ++ ended.wire ++ tail)]).2 = [0xFF] :: more := by
  have hdropped : frameDecoder.drain CodecState.fresh.toFragments (f.wire ++ [0x89, 0x05]) =
      ⟨CodecState.fresh.toFragments, [], [], (f.wire ++ [0x89, 0x05]).drop f.wire.length⟩ := by
    have hparse := parseFrame_refused CodecState.fresh.toFragments hop hfits hinvalid
    apply Decoder.drain_of_halt
    rw [frameDecoder.stable _ (by simp [hparse]), hparse]
  have hbegun : frameDecoder.Passes CodecState.fresh.toFragments begun.wire {} [] :=
    passes_collect (by decide) (by decide) (by decide)
  have hended : frameDecoder.Passes {} ended.wire {} [{ payload := [0xFF] }] :=
    passes_deliver (by decide) (by decide) (by decide) (by decide)
  have hbufs : ∀ b ∈ [bufferOf (f.wire ++ [0x89, 0x05]),
      bufferOf (begun.wire ++ ended.wire ++ tail)], b.readable ≠ [] := by
    simp [readable_bufferOf, wire, header]
  obtain ⟨hfired, -, -⟩ := readAll_eq_feedAll .fresh _ hbufs
  have hleft : CodecState.fresh.leftover.readable = [] := rfl
  rw [hfired, hleft]
  simp only [List.map_cons, List.map_nil, readable_bufferOf, Decoder.feedAll, List.nil_append,
    hdropped, hbegun.append hended tail, List.append_nil]
  exact ⟨_, textPayloads_cons_text rfl _⟩

namespace TextMessage

variable {m : TextMessage}

/-- A message that is UTF-8 from its first fragment on. -/
theorem respected_of_valid (hfirst : isValidUtf8 m.first = true)
    (hvalid : isValidUtf8 m.payload = true) : m.Respected := by
  intro st earlier later next out frames bufs hleft hearlier hframes hbufs hcut
  obtain ⟨last, own, hpasses, hown⟩ := hframes.passes next hfirst
  obtain ⟨behind, hfired, hnone⟩ := readAll_of_passes hleft (hearlier.append hpasses) hbufs hcut
  rw [List.map_append, textPayloads_append, hown] at hfired
  refine ⟨_, behind, hfired, hnone, fun _ => rfl, ?_, ?_⟩
  · intro hinvalid
    rw [hvalid] at hinvalid
    cases hinvalid
  · intro p hp
    rw [List.mem_singleton.mp hp, hvalid]

/-- A message of one frame that is not UTF-8 goes, and what is behind it in its buffer. -/
theorem respected_of_whole (hrest : m.rest = []) (hinvalid : isValidUtf8 m.first = false) :
    m.Respected := by
  intro st earlier later next out frames bufs hleft hearlier hframes hbufs hcut
  have hpayload : isValidUtf8 m.payload = false := by
    rw [payload, hrest, List.flatten_nil, List.append_nil, hinvalid]
  have hright : m.Right [] := by
    refine ⟨?_, fun _ => List.not_mem_nil, fun p hp => absurd hp List.not_mem_nil⟩
    intro hvalid
    rw [hpayload] at hvalid
    cases hvalid
  cases hframes with
  | @whole f hop hfin hfirst _ =>
    have hfits := m.fits
    rw [List.length_append, ← hfirst] at hfits
    rw [← hfirst] at hinvalid
    have hrefused := parseFrame_refused next hop (by omega) hinvalid
    rw [List.map_singleton, List.flatten_singleton] at hcut
    by_cases hlater : later = []
    · -- nothing is dropped but the frame
      have hdrain : frameDecoder.drain st.toFragments (earlier ++ f.wire) =
          ⟨next, out, [], []⟩ := by
        rw [hearlier, Decoder.drain_of_halt hrefused, List.drop_length, List.append_nil]
      rw [hlater, List.append_nil] at hcut
      obtain ⟨hfired, -, -⟩ := readAll_eq_drain hbufs hcut hleft (by rw [hdrain])
      rw [hfired, hdrain]
      exact ⟨[], [], by simp, fun _ => rfl, hright⟩
    · rw [List.append_assoc] at hcut
      obtain ⟨behind, hfired, -⟩ := readAll_of_passes hleft hearlier hbufs hcut
      exact ⟨[], behind, by rw [hfired, List.append_nil], fun h => absurd h hlater, hright⟩
  | fragments hop hfin hfirst hcontinues => exact absurd hrest hcontinues.ne_nil

/-- A message on a connection of its own. -/
theorem Respected.right {frames : List WebSocketFrame} {bufs : List ByteBuf} {fired : List Bytes}
    (h : m.Respected) (hframes : m.SentAs frames) (hbufs : ∀ b ∈ bufs, b.readable ≠ [])
    (hcut : (bufs.map ByteBuf.readable).flatten = (frames.map wire).flatten)
    (hfired : textPayloads (readAll .fresh bufs).2 = fired) : m.Right fired := by
  obtain ⟨own, behind, hsplit, hnone, hright⟩ := h .fresh [] [] _ [] frames bufs rfl
    (Decoder.Passes.nil _) hframes hbufs (by rw [hcut, List.nil_append, List.append_nil])
  rw [hnone rfl, hfired, List.append_nil] at hsplit
  rwa [hsplit]

/-- A message of more frames whose first fragment is not UTF-8. -/
theorem not_respected_of_first (hrest : m.rest ≠ []) (hinvalid : isValidUtf8 m.first = false) :
    ¬ m.Respected := by
  intro hrespected
  obtain ⟨fs, hfs⟩ := exists_continues hrest
  have hframes : m.SentAs ({ fin := false, payload := m.first } :: echo :: fs) :=
    .fragments rfl rfl rfl (.control control_echo hfs)
  have hfits := m.fits
  rw [List.length_append] at hfits
  obtain ⟨more, hfired⟩ := textPayloads_echo (f := { fin := false, payload := m.first }) rfl
    (by dsimp only; omega) hinvalid (fs.map wire).flatten
  have hright := hrespected.right hframes (by simp [readable_bufferOf, wire, header])
    (by simp [readable_bufferOf, wire_echo]) hfired
  exact absurd (hright.all_valid _ List.mem_cons_self) (by decide)

/-- A message of more frames whose first fragment is UTF-8. -/
theorem not_respected_of_rest (hrest : m.rest ≠ []) (hfirst : isValidUtf8 m.first = true)
    (hinvalid : isValidUtf8 m.payload = false) : ¬ m.Respected := by
  intro hrespected
  obtain ⟨fs, hfs⟩ := exists_continues hrest
  have hframes : m.SentAs ({ fin := false, payload := m.first } :: fs) :=
    .fragments rfl rfl rfl hfs
  obtain ⟨next, out, hpasses, hout⟩ := hframes.passes CodecState.fresh.toFragments hfirst
  have hbufs : ∀ b ∈ [bufferOf
      (({ fin := false, payload := m.first } :: fs).map wire).flatten], b.readable ≠ [] := by
    simp [readable_bufferOf, wire, header]
  obtain ⟨behind, hfired, hnone⟩ := readAll_of_passes rfl hpasses hbufs
    (show _ = _ ++ [] by simp [readable_bufferOf])
  rw [hout, hnone rfl, List.append_nil] at hfired
  have hright := hrespected.right hframes hbufs (by simp [readable_bufferOf]) hfired
  exact hright.invalid hinvalid (List.mem_singleton.mpr rfl)

/-- **When text messages are delivered exactly if they are valid**: when they come in one frame,
or are UTF-8 and so is their first fragment. -/
theorem respected_iff (m : TextMessage) :
    m.Respected ↔
      m.rest = [] ∨ isValidUtf8 m.first = true ∧ isValidUtf8 m.payload = true := by
  constructor
  · intro hrespected
    by_contra hnot
    obtain ⟨hrest, hinvalid⟩ := not_or.mp hnot
    cases hfirst : isValidUtf8 m.first with
    | false => exact not_respected_of_first hrest hfirst hrespected
    | true =>
      refine not_respected_of_rest hrest hfirst ?_ hrespected
      exact Bool.eq_false_of_not_eq_true fun hvalid => hinvalid ⟨hfirst, hvalid⟩
  · rintro (hrest | ⟨hfirst, hvalid⟩)
    · cases hfirst : isValidUtf8 m.first with
      | false => exact respected_of_whole hrest hfirst
      | true =>
        apply respected_of_valid hfirst
        rw [payload, hrest, List.flatten_nil, List.append_nil, hfirst]
    · exact respected_of_valid hfirst hvalid

/-- The letter é cut in two is not delivered, and a letter with a byte behind it that is not
UTF-8 is. -/
theorem not_respected_cut_letter :
    ¬ Respected { first := [0xC3], rest := [[0xA9]] } ∧
      ¬ Respected { first := [0x61], rest := [[0xFF]] } := by
  have hframes (m : TextMessage) (p : Bytes) (hrest : m.rest = [p]) :
      m.SentAs [{ fin := false, payload := m.first }, { opcode := .continuation, payload := p }] :=
    .fragments rfl rfl rfl (hrest ▸ @Continues.last { opcode := .continuation, payload := p }
      rfl rfl)
  constructor
  · intro h
    have hfired : textPayloads (readAll .fresh
        [bufferOf [0x01, 0x01, 0xC3, 0x80, 0x01, 0xA9]]).2 = [] := by decide +kernel
    have hright := h.right (hframes _ [0xA9] rfl) (by decide) (by decide) hfired
    exact absurd (hright.valid (by decide)) (by decide)
  · intro h
    have hfired : textPayloads (readAll .fresh
        [bufferOf [0x01, 0x01, 0x61, 0x80, 0x01, 0xFF]]).2 = [[0x61, 0xFF]] := by decide +kernel
    have hright := h.right (hframes _ [0xFF] rfl) (by decide) (by decide) hfired
    exact hright.invalid (by decide) (by decide)

end TextMessage

end WebSocketCodec

end XNetty
