import XNetty.WebSocket.TextMessages

/-!
# Stopping at a frame

At a frame that it refuses, and behind a `CLOSE`, `channelRead` returns with the rest of the
buffer unread. Nothing else says that the codec has stopped: the caller clears the buffer, and
the next one is parsed from its first byte, wherever in a frame that may be.

## Main definitions

* `WebSocketCodec.StopsForGood` — nothing is fired behind such a frame, however the stream is cut.
* `WebSocketCodec.Deliverable` — bytes that begin with a frame that is fired.
* `WebSocketCodec.stopsForGood_iff` — when the codec stops for good.
-/

namespace XNetty

namespace WebSocketCodec

open Incremental

/-- The call returned in front of a frame it refused, or of a `CLOSE` that it fired. Every other
return clears the buffer, but for the one by an exception. -/
def ReadResult.Stopped (r : ReadResult) : Prop := r.thrown = false ∧ r.buf.readable ≠ []

/-- **What is expected of the codec.** However a stream is cut, nothing is fired from the buffers
behind one in which the codec has stopped, and what is fired is the same. -/
structure StopsForGood (stream : Bytes) : Prop where
  silent : ∀ (bufs : List ByteBuf) (buf : ByteBuf) (later : List ByteBuf),
    (∀ b ∈ bufs ++ buf :: later, b.readable ≠ []) →
    ((bufs ++ buf :: later).map ByteBuf.readable).flatten = stream →
    (readBuffer (readAll .fresh bufs).1 buf).Stopped →
    (readAll (readBuffer (readAll .fresh bufs).1 buf).state later).2 = []
  same : ∀ bufs bufs' : List ByteBuf, (∀ b ∈ bufs, b.readable ≠ []) →
    (∀ b ∈ bufs', b.readable ≠ []) → (bufs.map ByteBuf.readable).flatten = stream →
    (bufs'.map ByteBuf.readable).flatten = stream →
    (readAll .fresh bufs).2 = (readAll .fresh bufs').2

/-- A whole frame at the front of the bytes, of a kind that the codec fires. -/
def Deliverable (raw : Bytes) : Prop :=
  ∃ h, parseHeader raw = some h ∧ h.headerLen + h.payloadLen ≤ raw.length ∧
    h.payloadLen ≤ maxStringSize ∧ h.fin = true ∧
    (h.opcode = .text → isValidUtf8 (payloadOf raw h) = true)

/-! ## What a frame does in any state -/

/-- Whether a frame is fired, refused or collected does not depend on the state. -/
theorem frameAction_cases (h : FrameHeader) (payload : Bytes) :
    (h.fin = true ∧ (h.opcode = .text → isValidUtf8 payload = true) ∧
      ∀ st, ∃ next frame, frameAction st h payload = .deliver next frame) ∨
    (¬ (h.fin = true ∧ (h.opcode = .text → isValidUtf8 payload = true)) ∧
      ((∀ st, frameAction st h payload = .refuse) ∨
        ∀ st, ∃ next, frameAction st h payload = .collect next)) := by
  by_cases hcontrol : h.opcode.toUInt8 ≥ WebSocketOpcode.close.toUInt8 ∧ ¬ h.fin
  · exact .inr ⟨fun hd => hcontrol.2 hd.1, .inl fun st => by rw [frameAction, if_pos hcontrol]⟩
  by_cases htext : h.opcode = .text ∧ isValidUtf8 payload = false
  · refine .inr ⟨fun hd => ?_, .inl fun st => by rw [frameAction, if_neg hcontrol, if_pos htext]⟩
    cases htext.2.symm.trans (hd.2 htext.1)
  have hvalid : h.opcode = .text → isValidUtf8 payload = true := by
    intro hop
    simpa [hop] using htext
  by_cases hfin : h.fin = true
  · refine .inl ⟨hfin, hvalid, fun st => ?_⟩
    rw [frameAction, if_neg hcontrol, if_neg htext]
    by_cases hop : h.opcode = .continuation
    · exact ⟨_, _, by rw [if_pos hop, if_pos hfin]⟩
    · exact ⟨_, _, by rw [if_neg hop, if_neg (not_not_intro hfin)]⟩
  · refine .inr ⟨fun hd => hfin hd.1, .inr fun st => ?_⟩
    rw [frameAction, if_neg hcontrol, if_neg htext]
    by_cases hop : h.opcode = .continuation
    · exact ⟨_, by rw [if_pos hop, if_neg hfin]⟩
    · exact ⟨_, by rw [if_neg hop, if_pos hfin]⟩

/-- The front of the bytes: a frame that is fired, or something on which nothing is. -/
theorem parseFrame_cases (raw : Bytes) :
    (Deliverable raw ∧ ∀ st, ∃ n next frame,
      parseFrame st raw = .done n next [frame] ∨ parseFrame st raw = .halt n next [frame]) ∨
    (¬ Deliverable raw ∧ ((∀ st, parseFrame st raw = .more) ∨
      (∃ n, ∀ st, ∃ next, parseFrame st raw = .done n next []) ∨
        ∃ n, ∀ st, ∃ next, parseFrame st raw = .halt n next [])) := by
  cases hh : parseHeader raw with
  | none =>
    refine .inr ⟨?_, .inl fun st => by simp only [parseFrame, hh]⟩
    rintro ⟨h, hsome, -⟩
    cases hh.symm.trans hsome
  | some h =>
    have hdeliverable : Deliverable raw ↔ h.headerLen + h.payloadLen ≤ raw.length ∧
        h.payloadLen ≤ maxStringSize ∧ h.fin = true ∧
        (h.opcode = .text → isValidUtf8 (payloadOf raw h) = true) := by
      rw [Deliverable, hh]
      simp
    rw [hdeliverable]
    by_cases hlen : raw.length < (h.headerLen + h.payloadLen) % sizeWrap
    · refine .inr ⟨?_, .inl fun st => parseFrame_of_short hh hlen⟩
      rintro ⟨hle, -⟩
      have := Nat.mod_le (h.headerLen + h.payloadLen) sizeWrap
      omega
    by_cases hstr : maxStringSize < h.payloadLen
    · refine .inr ⟨fun hd => ?_, .inr (.inr ⟨_, fun st => ⟨_, parseFrame_of_huge hh hlen hstr⟩⟩)⟩
      exact absurd hd.2.1 (not_le.mpr hstr)
    have hframe (st : Fragments) : parseFrame st raw = _ := parseFrame_of_frame hh hlen hstr
    rw [frame_length hh hstr, not_lt] at hlen
    rw [and_iff_right hlen, and_iff_right (not_lt.mp hstr)]
    rcases frameAction_cases h (payloadOf raw h) with ⟨hfin, hvalid, hact⟩ | ⟨hnot, hact | hact⟩
    · refine .inl ⟨⟨hfin, hvalid⟩, fun st => ?_⟩
      obtain ⟨next, frame, hdeliver⟩ := hact st
      rw [hframe, hdeliver, FrameAction.verdict]
      split
      · exact ⟨_, _, _, .inr rfl⟩
      · exact ⟨_, _, _, .inl rfl⟩
    · exact .inr ⟨hnot, .inr (.inr ⟨_, fun st => ⟨st, by rw [hframe, hact]; rfl⟩⟩)⟩
    · refine .inr ⟨hnot, .inr (.inl ⟨h.headerLen + h.payloadLen, fun st => ?_⟩)⟩
      obtain ⟨next, hcollect⟩ := hact st
      exact ⟨next, by rw [hframe, hcollect]; rfl⟩

/-- A frame at the front that is fired. -/
theorem drain_out_of_deliverable {raw : Bytes} (h : Deliverable raw) (st : Fragments) :
    (frameDecoder.drain st raw).out ≠ [] := by
  rcases parseFrame_cases raw with ⟨-, hparse⟩ | ⟨hnot, -⟩
  · obtain ⟨n, next, frame, hdone | hhalt⟩ := hparse st
    · rw [Decoder.drain_of_done (d := frameDecoder) hdone]
      exact List.cons_ne_nil _ _
    · rw [Decoder.drain_of_halt (d := frameDecoder) hhalt]
      exact List.cons_ne_nil _ _
  · exact absurd h hnot

theorem frameDecoder_mute : frameDecoder.Mute := by
  intro st st' raw hnone
  induction hn : raw.length using Nat.strong_induction_on generalizing st st' raw with
  | _ n ih =>
    rcases parseFrame_cases raw with ⟨hraw, -⟩ | ⟨-, hparse | ⟨k, hparse⟩ | ⟨k, hparse⟩⟩
    · exact absurd hnone (drain_out_of_deliverable hraw st)
    · rw [Decoder.drain_of_more (d := frameDecoder) (hparse st')]
    · obtain ⟨next, hdone⟩ := hparse st
      obtain ⟨next', hdone'⟩ := hparse st'
      have hk := parseFrame_bounds (.inl hdone)
      rw [Decoder.drain_of_done (d := frameDecoder) hdone] at hnone
      rw [Decoder.drain_of_done (d := frameDecoder) hdone']
      exact ih (raw.drop k).length (by simp only [List.length_drop]; omega) _ _ _ hnone rfl
    · obtain ⟨next', hhalt'⟩ := hparse st'
      rw [Decoder.drain_of_halt (d := frameDecoder) hhalt']

/-- Behind the point at which the decoder gives up, silence is that no byte begins a frame that
is fired. -/
theorem silent_iff (st : Fragments) (stream : Bytes) :
    (∀ before behind, before ++ behind = stream → frameDecoder.Halts st before →
      (frameDecoder.drain st behind).out = []) ↔
    ∀ before behind, before ++ behind = stream → frameDecoder.Halts st before →
      ¬ Deliverable behind := by
  constructor
  · intro h before behind hcut hhalts hbehind
    exact drain_out_of_deliverable hbehind st (h before behind hcut hhalts)
  · intro h before behind hcut hhalts
    induction hn : behind.length using Nat.strong_induction_on generalizing before behind with
    | _ n ih =>
      rcases parseFrame_cases behind with ⟨hraw, -⟩ | ⟨-, hparse | ⟨k, hparse⟩ | ⟨k, hparse⟩⟩
      · exact absurd hraw (h before behind hcut hhalts)
      · rw [Decoder.drain_of_more (d := frameDecoder) (hparse st)]
      · obtain ⟨next, hdone⟩ := hparse st
        have hk := parseFrame_bounds (.inl hdone)
        rw [Decoder.drain_of_done (d := frameDecoder) hdone]
        refine frameDecoder_mute st next _ (ih (behind.drop k).length
          (by simp only [List.length_drop]; omega) (before ++ behind.take k) (behind.drop k) ?_
          (hhalts.append _) rfl)
        rw [List.append_assoc, List.take_append_drop, hcut]
      · obtain ⟨next, hhalt⟩ := hparse st
        rw [Decoder.drain_of_halt (d := frameDecoder) hhalt]

/-! ## The calls -/

/-- **The loop leaves bytes in the buffer** exactly when the decoder gives up in it. -/
theorem readLoop_left_iff (fuel : ℕ) (st : CodecState) (buf : ByteBuf)
    (hfuel : buf.readableBytes ≤ fuel) :
    (readLoop fuel st buf).buf.readable ≠ [] ↔ frameDecoder.Halts st.toFragments buf.readable := by
  have hcleared (st : Fragments) (buf buf' : ByteBuf)
      (hmore : frameDecoder.parse st buf.readable = .more) :
      buf'.clear.readable ≠ [] ↔ frameDecoder.Halts st buf.readable :=
    iff_of_false (by simp) (Decoder.not_halts_of_more hmore)
  induction fuel generalizing st buf with
  | zero =>
    have hnil : buf.readable = [] := (ByteBuf.readable_eq_nil_iff _).mpr (by omega)
    exact hcleared _ _ _ (by rw [hnil]; rfl)
  | succ fuel ih =>
    by_cases hzero : buf.readableBytes = 0
    · have hnil : buf.readable = [] := (ByteBuf.readable_eq_nil_iff _).mpr hzero
      rw [readLoop, if_pos hzero]
      exact hcleared _ _ _ (by rw [hnil]; rfl)
    have hturn := readLoop_turn fuel st buf hzero
    cases hparse : parseFrame st.toFragments buf.readable with
    | more =>
      rw [hparse] at hturn
      rw [hturn]
      exact hcleared _ _ _ hparse
    | halt n next out =>
      rw [hparse] at hturn
      obtain ⟨thrown, hturn⟩ := hturn
      have hne : buf.readable ≠ [] := fun h => hzero ((ByteBuf.readable_eq_nil_iff _).mp h)
      rw [hturn]
      exact iff_of_true hne (.here hparse)
    | done n next out =>
      rw [hparse] at hturn
      have hrest := ih { st with toFragments := next } _ (readableBytes_discard_le hparse hfuel)
      rw [ByteBuf.readable_discard] at hrest
      rw [hturn]
      refine hrest.trans ⟨.later hparse, ?_⟩
      rintro (hhalt | ⟨hdone, hhalts⟩)
      · cases hparse.symm.trans hhalt
      · cases hparse.symm.trans hdone
        exact hhalts

theorem readBuffer_left_iff (st : CodecState) (buf : ByteBuf) :
    (readBuffer st buf).buf.readable ≠ [] ↔
      frameDecoder.Halts st.toFragments (st.leftover.readable ++ buf.readable) := by
  obtain ⟨leftover, buf', -, hbuf, heq⟩ := readBuffer_eq st buf
  rw [heq, ← hbuf]
  exact readLoop_left_iff _ { st with leftover } buf' le_rfl

/-! ## Streams -/

theorem readAll_fresh_eq {bufs : List ByteBuf} (hbufs : ∀ b ∈ bufs, b.readable ≠ []) :
    (readAll .fresh bufs).2 =
      (frameDecoder.feedAll {} [] (bufs.map ByteBuf.readable)).out.map .frame :=
  (readAll_eq_feedAll .fresh bufs hbufs).1

/-- Every cutting of the stream fires what the whole does. -/
theorem same_iff (stream : Bytes) :
    (∀ bufs bufs' : List ByteBuf, (∀ b ∈ bufs, b.readable ≠ []) →
      (∀ b ∈ bufs', b.readable ≠ []) → (bufs.map ByteBuf.readable).flatten = stream →
      (bufs'.map ByteBuf.readable).flatten = stream →
      (readAll .fresh bufs).2 = (readAll .fresh bufs').2) ↔
    ∀ cs, (∀ c ∈ cs, c ≠ []) → cs.flatten = stream →
      (frameDecoder.feedAll {} [] cs).out = (frameDecoder.drain {} stream).out := by
  constructor
  · intro h cs hcs hflat
    by_cases hnil : stream = []
    · obtain rfl : cs = [] := List.eq_nil_iff_forall_not_mem.mpr fun c hc =>
        hcs c hc (List.flatten_eq_nil_iff.mp (hflat.trans hnil) c hc)
      rw [hnil, Decoder.drain_nil, Decoder.feedAll]
    have hmap : (cs.map bufferOf).map ByteBuf.readable = cs := by
      simp [Function.comp_def, readable_bufferOf]
    have hpieces : ∀ b ∈ cs.map bufferOf, b.readable ≠ [] := by
      simpa [readable_bufferOf] using hcs
    have hwhole : ∀ b ∈ [bufferOf stream], b.readable ≠ [] := by
      simpa [readable_bufferOf] using hnil
    have hsame := h (cs.map bufferOf) [bufferOf stream] hpieces hwhole (by rw [hmap, hflat])
      (by simp [readable_bufferOf])
    rw [readAll_fresh_eq hpieces, readAll_fresh_eq hwhole, hmap] at hsame
    have hout := List.map_injective_iff.mpr (fun _ _ => Msg.frame.inj) hsame
    rw [hout]
    simp [Decoder.feedAll, readable_bufferOf]
  · intro h bufs bufs' hbufs hbufs' hflat hflat'
    rw [readAll_fresh_eq hbufs, readAll_fresh_eq hbufs',
      h (bufs.map ByteBuf.readable) (by simpa using hbufs) hflat,
      h (bufs'.map ByteBuf.readable) (by simpa using hbufs') hflat']

theorem readAll_append (st : CodecState) (bufs bufs' : List ByteBuf) :
    readAll st (bufs ++ bufs') =
      ((readAll (readAll st bufs).1 bufs').1,
        (readAll st bufs).2 ++ (readAll (readAll st bufs).1 bufs').2) := by
  induction bufs generalizing st with
  | nil => rfl
  | cons b bufs ih => simp only [List.cons_append, readAll, ih, List.append_assoc]

/-- If no cutting matters, nothing is fired behind a call that has stopped: its buffer might as
well have held all that came later. -/
theorem silent_of_same {st : CodecState} {buf : ByteBuf} {later : List ByteBuf}
    (hbuf : buf.readable ≠ []) (hstopped : (readBuffer st buf).Stopped)
    (hsame : (readAll st (buf :: later)).2 = (readAll st [bufferOf
      (buf.readable ++ (later.map ByteBuf.readable).flatten)]).2) :
    (readAll (readBuffer st buf).state later).2 = [] := by
  have hhalts := (readBuffer_left_iff st buf).mp hstopped.2
  have hcall (b : ByteBuf) (hb : b.readable ≠ []) :
      channelRead st (.buffer b) =
        ((readBuffer st b).state, (readBuffer st b).fired.map .frame) := by
    rw [channelRead, if_neg fun h => hb ((ByteBuf.readable_eq_nil_iff _).mpr h)]
  rw [readAll, readAll, readAll, hcall _ hbuf, hcall _ (by simp [readable_bufferOf, hbuf]),
    (readBuffer_drains st buf).1, (readBuffer_drains st _).1, readable_bufferOf,
    ← List.append_assoc, Decoder.drain_append_of_halts hhalts, List.append_nil] at hsame
  exact List.append_right_eq_self.mp hsame

/-- **Stopping for good.** The codec stops for good on a stream if and only if no byte behind the
frame at which it first gives up begins what looks like a frame that is fired. -/
theorem stopsForGood_iff (stream : Bytes) :
    StopsForGood stream ↔ ∀ before behind, before ++ behind = stream →
      frameDecoder.Halts {} before → ¬ Deliverable behind := by
  rw [← silent_iff, ← Decoder.feedAll_out_iff frameDecoder_mute, ← same_iff]
  refine ⟨StopsForGood.same, fun hsame => ⟨?_, hsame⟩⟩
  intro bufs buf later hbufs hflat hstopped
  have hbuf : buf.readable ≠ [] := hbufs buf (by simp)
  refine silent_of_same hbuf hstopped ?_
  have hwhole := hsame (bufs ++ buf :: later)
    (bufs ++ [bufferOf (buf.readable ++ (later.map ByteBuf.readable).flatten)]) hbufs ?_ hflat ?_
  · rw [readAll_append, readAll_append] at hwhole
    exact List.append_cancel_left hwhole
  · intro b hb
    rcases List.mem_append.mp hb with hb | hb
    · exact hbufs b (List.mem_append_left _ hb)
    · rw [List.mem_singleton.mp hb, readable_bufferOf]
      simp [hbuf]
  · rw [← hflat]
    simp [readable_bufferOf]

/-- A `TEXT` frame that is not UTF-8, with a `PING` behind it: the ping is fired when it comes in
a buffer of its own. -/
theorem not_stopsForGood_ping : ¬ StopsForGood [0x81, 0x01, 0xFF, 0x89, 0x00] := by
  intro h
  have hsame := h.same [bufferOf [0x81, 0x01, 0xFF], bufferOf [0x89, 0x00]]
    [bufferOf [0x81, 0x01, 0xFF, 0x89, 0x00]] (by simp [readable_bufferOf])
    (by simp [readable_bufferOf]) (by simp [readable_bufferOf]) (by simp [readable_bufferOf])
  exact absurd (congrArg List.length hsame) (by decide +kernel)

end WebSocketCodec

end XNetty
