import XNetty.Http.Delivery
import XNetty.Http.Turns
import XNetty.WebSocket.RoundTrip
import XNetty.WebSocket.Upgrade

/-!
# The HTTP codec after the upgrade

After the upgrade the HTTP codec still looks at the first byte of every buffer. It passes a
buffer on to the WebSocket codec exactly when that byte is no upper-case letter.

## Main definitions

* `ClientStream` — frames as a client sends them.
* `UpgradePipeline.Upgraded` — the state behind the upgrade.
* `UpgradePipeline.Transparent` — the HTTP codec might as well not be there.
* `UpgradePipeline.transparent_iff` — when it is transparent.
-/

namespace XNetty

open Incremental WebSocketFrame

/-! ## Frames of a client -/

def knownOpcodes : List WebSocketOpcode := [.continuation, .text, .binary, .close, .ping, .pong]

/-- A valid frame of a client: masked, control frames whole and short. -/
structure ClientFrame (f : WebSocketFrame) : Prop where
  mask : f.mask = true
  opcode : f.opcode ∈ knownOpcodes
  control : f.opcode.toUInt8 ≥ WebSocketOpcode.close.toUInt8 → f.fin = true ∧ f.payload.length ≤ 125

/-- Valid frames, nothing behind a close. -/
def ClientStream : List WebSocketFrame → Prop
  | [] => True
  | f :: fs => ClientFrame f ∧ (f.opcode = .close → fs = []) ∧ ClientStream fs

/-- The WebSocket codec takes these frames: the payload of a text frame is UTF-8 by itself,
and the lengths do not overflow. -/
def Taken (f : WebSocketFrame) : Prop :=
  (f.opcode = .text → isValidUtf8 f.payload = true) ∧ f.payload.length < 2 ^ 62

/-- A frame does not begin like a request. -/
theorem startsRequest_wire {f : WebSocketFrame} (h : f.opcode ∈ knownOpcodes) (tail : Bytes) :
    HttpServerCodec.startsRequest (f.wire ++ tail) = false := by
  have hfirst : HttpServerCodec.startsRequest (f.wire ++ tail) =
      decide (65 ≤ f.firstByte ∧ f.firstByte ≤ 90) := by
    simp [HttpServerCodec.startsRequest, wire, header]
  rw [hfirst, firstByte]
  simp only [knownOpcodes, List.mem_cons, List.not_mem_nil, or_false] at h
  rcases h with h | h | h | h | h | h <;> rw [h] <;> cases f.fin <;> decide

namespace WebSocketCodec

section taken

variable {f : WebSocketFrame} (hf : ClientFrame f) (htaken : Taken f)
include hf htaken

/-- **What the codec does with a frame it takes**: only a close makes it fire a close. -/
theorem frameAction_taken {st : Fragments} (hst : st.fragmentOpcode ≠ .close) :
    (∃ next, frameAction st (wireHeader f) f.payload = .collect next ∧
      next.fragmentOpcode ≠ .close) ∨
    ∃ next g, frameAction st (wireHeader f) f.payload = .deliver next g ∧
      next.fragmentOpcode ≠ .close ∧ (g.opcode = .close → f.opcode = .close) := by
  have hcontrol : ¬ (f.opcode.toUInt8 ≥ WebSocketOpcode.close.toUInt8 ∧ ¬ f.fin) :=
    fun h => h.2 (hf.control h.1).1
  have htext : ¬ (f.opcode = .text ∧ isValidUtf8 f.payload = false) := by
    intro h
    rw [htaken.1 h.1] at h
    exact absurd h.2 (by simp)
  unfold frameAction wireHeader
  dsimp only
  rw [if_neg hcontrol, if_neg htext]
  by_cases hcont : f.opcode = .continuation
  · rw [if_pos hcont]
    by_cases hfin : f.fin = true
    · rw [if_pos hfin]
      exact .inr ⟨_, _, rfl, hst, fun h => absurd h hst⟩
    · rw [if_neg hfin]
      exact .inl ⟨_, rfl, hst⟩
  · rw [if_neg hcont]
    by_cases hfin : f.fin = true
    · rw [if_neg (not_not.mpr hfin)]
      exact .inr ⟨_, _, rfl, hst, id⟩
    · rw [if_pos hfin]
      refine .inl ⟨_, rfl, fun hclose => ?_⟩
      have hop : f.opcode = .close := hclose
      exact hfin (hf.control (by rw [hop]; decide)).1

end taken

theorem opcode_lt_of_known {op : WebSocketOpcode} (h : op ∈ knownOpcodes) :
    op.toUInt8.toNat < 16 := by
  revert op
  decide

/-- **A stream of frames that the codec takes** is decoded to its end. -/
theorem drain_dropped {fs : List WebSocketFrame} (hfs : ClientStream fs)
    (htaken : ∀ f ∈ fs, Taken f) {st : Fragments} (hst : st.fragmentOpcode ≠ .close) :
    (frameDecoder.drain st (fs.map wire).flatten).dropped = [] := by
  induction fs generalizing st with
  | nil => simp
  | cons f fs ih =>
    obtain ⟨hf, hlast, hfs⟩ := hfs
    obtain ⟨hftaken, htaken⟩ := List.forall_mem_cons.mp htaken
    have hop := opcode_lt_of_known hf.opcode
    rw [List.map_cons, List.flatten_cons]
    rcases frameAction_taken hf hftaken hst with ⟨next, hact, hnext⟩ | ⟨next, g, hact, hnext, hg⟩
    · rw [drain_collect hop (le_maxStringSize hftaken.2) hact]
      exact ih hfs htaken hnext
    · by_cases hclose : g.opcode = .close
      · -- the codec stops at a close, which is the last frame
        have hparse := parseFrame_wire st hop (le_maxStringSize hftaken.2)
        rw [hact, FrameAction.verdict, if_pos hclose] at hparse
        rw [hlast (hg hclose), List.map_nil, List.flatten_nil, List.append_nil,
          Decoder.drain_of_halt hparse]
        exact List.drop_length
      · rw [drain_deliver hop (le_maxStringSize hftaken.2) hact hclose]
        exact ih hfs htaken hnext

end WebSocketCodec

namespace HttpServerCodec

/-- The loop passes on requests only. -/
theorem readLoop_no_buffer {codec : HttpServerCodec} {ll : Llhttp} {fuel : ℕ}
    {st st' : CodecState} {src : Source} {raw : Bytes} {actions : List Action}
    (h : readLoop codec ll fuel st src raw = some (st', actions)) (buf : ByteBuf) :
    .fireRead (.buffer buf) ∉ actions := by
  induction fuel generalizing st st' src raw actions with
  | zero =>
    obtain ⟨rfl, rfl⟩ := Prod.mk.inj (Option.some.inj h)
    simp
  | succ fuel ih =>
    rcases readLoop_cases h with rfl | rfl | ⟨req, rfl | rfl | ⟨_, _, _, later, hlater, rfl⟩⟩
    · simp
    · simp
    · simp [noted]
    · simp [noted]
    · have hlater' := ih hlater
      simp [noted, hlater']

end HttpServerCodec

/-! ## The pipeline behind the upgrade -/

/-- The frames among the messages that reach the WebSocket handler. -/
def deliveredFrames (msgs : List Msg) : List WebSocketFrame :=
  msgs.filterMap fun
    | .frame f => some f
    | _ => none

namespace UpgradePipeline

open HttpServerCodec (startsRequest)

variable {pl : UpgradePipeline} {ll : Llhttp}

/-- The HTTP codec keeps nothing, and no byte has reached the WebSocket codec. -/
structure Upgraded (st : State) : Prop where
  idle : st.http.leftover.readable = []
  fresh : st.ws = .fresh

/-- The HTTP codec is transparent for these buffers: each of them is passed on unchanged, the
WebSocket codec delivers what it would deliver by itself, and these are the frames that it
delivers when they come in one buffer, if it takes them. -/
def Transparent (pl : UpgradePipeline) (ll : Llhttp) (st : State) (fs : List WebSocketFrame)
    (one : ByteBuf) (bufs : List ByteBuf) : Prop :=
  ∃ st' rs, pl.readAll ll st bufs = some (st', rs) ∧
    rs.map ReadResult.httpActions = bufs.map (fun buf => [.fireRead (.buffer buf)]) ∧
    rs.flatMap ReadResult.delivered = (WebSocketCodec.readAll st.ws bufs).2 ∧
    ((∀ f ∈ fs, Taken f) → ∃ st'' r, pl.readAll ll st [one] = some (st'', [r]) ∧
      deliveredFrames (rs.flatMap ReadResult.delivered) = deliveredFrames r.delivered)

/-- Messages that are no buffers leave the WebSocket codec as it was. -/
theorem wsReadAll_quiet {ms : List Msg} (hms : ∀ buf, .buffer buf ∉ ms)
    (st : WebSocketCodec.CodecState) : wsReadAll st ms = (st, ms) := by
  induction ms with
  | nil => rfl
  | cons m ms ih =>
    have htail := ih fun buf hbuf => hms buf (List.mem_cons_of_mem _ hbuf)
    cases m with
    | buffer buf => exact absurd List.mem_cons_self (hms buf)
    | request req => simp [wsReadAll, WebSocketCodec.channelRead, htail]
    | response resp => simp [wsReadAll, WebSocketCodec.channelRead, htail]
    | frame f => simp [wsReadAll, WebSocketCodec.channelRead, htail]

/-- A buffer that the HTTP codec passes on. -/
theorem read_passed {st : State} {buf : ByteBuf} {http : HttpServerCodec.CodecState}
    (h : pl.http.channelRead ll st.http (.buffer buf) = some (http, [.fireRead (.buffer buf)])) :
    pl.read ll st buf =
      some
        { state := ⟨http, (WebSocketCodec.channelRead st.ws (.buffer buf)).1⟩
          httpActions := [.fireRead (.buffer buf)]
          actions := [.fireRead (.buffer buf)]
          delivered := (WebSocketCodec.channelRead st.ws (.buffer buf)).2 } := by
  rw [read, h]
  simp [passOn, WebSocketUpgradeHandler.channelRead, firedMessages, wsReadAll]

/-- **Buffers that do not begin like a request** reach the WebSocket codec. -/
theorem readAll_passed {st : State} (hidle : st.http.leftover.readable = []) {bufs : List ByteBuf}
    (hbufs : ∀ b ∈ bufs, startsRequest b.readable = false) :
    ∃ st' rs, pl.readAll ll st bufs = some (st', rs) ∧
      rs.map ReadResult.httpActions = bufs.map (fun buf => [.fireRead (.buffer buf)]) ∧
      rs.flatMap ReadResult.delivered = (WebSocketCodec.readAll st.ws bufs).2 := by
  induction bufs generalizing st with
  | nil => exact ⟨st, [], rfl, rfl, rfl⟩
  | cons buf bufs ih =>
    obtain ⟨hbuf, hbufs⟩ := List.forall_mem_cons.mp hbufs
    have hchannel : pl.http.channelRead ll st.http (.buffer buf) =
        some (st.http, [.fireRead (.buffer buf)]) :=
      HttpServerCodec.channelRead_of_other hidle hbuf
    have hread := read_passed hchannel
    obtain ⟨st', rs, hrun, hactions, hdelivered⟩ := @ih
      ⟨st.http, (WebSocketCodec.channelRead st.ws (.buffer buf)).1⟩ hidle hbufs
    refine ⟨st', _ :: rs, by rw [readAll, hread]; simp only [hrun]; rfl, ?_, ?_⟩
    · rw [List.map_cons, hactions]
      rfl
    · rw [List.flatMap_cons, hdelivered]
      rfl

/-- **A buffer that begins like a request** is not passed on. -/
theorem not_startsRequest_of_passed {st : State} (hidle : st.http.leftover.readable = [])
    {bufs : List ByteBuf} (hne : ∀ b ∈ bufs, b.readable ≠ []) {st' : State} {rs : List ReadResult}
    (hrun : pl.readAll ll st bufs = some (st', rs))
    (hactions : rs.map ReadResult.httpActions = bufs.map (fun buf => [.fireRead (.buffer buf)])) :
    ∀ b ∈ bufs, startsRequest b.readable = false := by
  induction bufs generalizing st rs with
  | nil => simp
  | cons buf bufs ih =>
    obtain ⟨hbuf, hne⟩ := List.forall_mem_cons.mp hne
    rw [readAll] at hrun
    cases hread : pl.read ll st buf with
    | none => simp [hread] at hrun
    | some r =>
      rw [hread] at hrun
      obtain ⟨⟨st'', later⟩, hlater, hresult⟩ := Option.map_eq_some_iff.mp hrun
      obtain ⟨rfl, rfl⟩ := Prod.mk.inj hresult
      obtain ⟨hfirst, hrest⟩ := List.cons.inj hactions
      obtain ⟨⟨http, actions⟩, hchannel, rfl⟩ := Option.map_eq_some_iff.mp hread
      obtain rfl : actions = [.fireRead (.buffer buf)] := hfirst
      have hstart : startsRequest buf.readable = false := by
        by_contra h
        rw [Bool.not_eq_false] at h
        rw [HttpServerCodec.channelRead_of_idle hbuf hidle h] at hchannel
        exact HttpServerCodec.readLoop_no_buffer hchannel buf (by simp)
      rw [HttpServerCodec.channelRead_of_other hidle hstart] at hchannel
      obtain ⟨rfl, -⟩ := Prod.mk.inj (Option.some.inj hchannel)
      rw [List.forall_mem_cons]
      refine ⟨hstart, ih ?_ hne hlater hrest⟩
      exact hidle

/-- **A read that the HTTP codec takes** and that leaves nothing in it, as when it completes an
upgrade request: the state behind it is one in which no byte has reached the WebSocket
codec. -/
theorem upgraded_of_read {st : State} (hws : st.ws = .fresh) {buf : ByteBuf} {r : ReadResult}
    (hread : pl.read ll st buf = some r) (htaken : ∀ b, .fireRead (.buffer b) ∉ r.httpActions)
    (hidle : r.state.http.leftover.readable = []) : Upgraded r.state := by
  refine ⟨hidle, ?_⟩
  obtain ⟨⟨http, actions⟩, -, rfl⟩ := Option.map_eq_some_iff.mp hread
  have hquiet : ∀ b, .buffer b ∉ firedMessages (passOn pl.upgrade.channelRead actions) := by
    intro b hb
    obtain ⟨action, haction, hfired⟩ := List.mem_filterMap.mp hb
    obtain ⟨first, hfirst, hpassed⟩ := List.mem_flatMap.mp haction
    cases first with
    | fireRead m =>
      have hm : m ≠ .buffer b := by
        rintro rfl
        exact htaken b hfirst
      cases action with
      | fireRead m' =>
        obtain rfl := Option.some.inj hfired
        exact pl.upgrade.channelRead_quiet hm hpassed
      | _ => simp at hfired
    | _ =>
      rw [List.mem_singleton] at hpassed
      subst hpassed
      simp at hfired
  show (wsReadAll st.ws _).1 = _
  rw [wsReadAll_quiet hquiet, hws]

/-- **The HTTP codec is transparent behind the upgrade** exactly when no buffer begins with an
upper-case letter. -/
theorem transparent_iff {st : State} (hst : Upgraded st) {fs : List WebSocketFrame}
    (hfs : ClientStream fs) {bufs : List ByteBuf} (hbufs : ∀ b ∈ bufs, b.readable ≠ [])
    (hcut : (bufs.map ByteBuf.readable).flatten = (fs.map wire).flatten) {one : ByteBuf}
    (hone : one.readable = (fs.map wire).flatten) :
    Transparent pl ll st fs one bufs ↔ ∀ b ∈ bufs, startsRequest b.readable = false := by
  constructor
  · rintro ⟨st', rs, hrun, hactions, -⟩
    exact not_startsRequest_of_passed hst.idle hbufs hrun hactions
  · intro hstarts
    obtain ⟨st', rs, hrun, hactions, hdelivered⟩ := readAll_passed hst.idle hstarts
    refine ⟨st', rs, hrun, hactions, hdelivered, fun htaken => ?_⟩
    have hstart : ∀ b ∈ [one], startsRequest b.readable = false := by
      rw [List.forall_mem_singleton, hone]
      cases fs with
      | nil => rfl
      | cons f fs => exact startsRequest_wire hfs.1.opcode _
    obtain ⟨st'', rs', hrun', hactions', hdelivered'⟩ := readAll_passed hst.idle hstart
    obtain ⟨r, rfl⟩ : ∃ r, rs' = [r] := by
      have hlen := congrArg List.length hactions'
      rw [List.length_map] at hlen
      exact List.length_eq_one_iff.mp hlen
    refine ⟨st'', r, hrun', ?_⟩
    rw [List.flatMap_singleton] at hdelivered'
    rw [hdelivered, hdelivered', hst.fresh]
    by_cases hempty : (fs.map wire).flatten = []
    · -- no byte has been sent
      have hnone : bufs = [] := by
        rcases bufs with _ | ⟨b, bufs⟩
        · rfl
        · rw [hempty, List.map_cons, List.flatten_cons, List.append_eq_nil_iff] at hcut
          exact absurd hcut.1 (hbufs b (by simp))
      have hbytes := (ByteBuf.readable_eq_nil_iff one).mp (hone.trans hempty)
      subst hnone
      simp [WebSocketCodec.readAll, WebSocketCodec.channelRead, hbytes, deliveredFrames]
    · have hdrop := WebSocketCodec.drain_dropped hfs htaken
        (show WebSocketCodec.CodecState.fresh.fragmentOpcode ≠ .close by decide)
      obtain ⟨hmany, -⟩ := WebSocketCodec.readAll_eq_drain hbufs hcut rfl hdrop
      obtain ⟨hsingle, -⟩ := @WebSocketCodec.readAll_eq_drain .fresh [one] _
        (by simpa [hone] using hempty) (by simpa using hone) rfl hdrop
      rw [hmany, hsingle]

section capital

/-- An upgrade request for `/ws`, and the handlers it goes through. -/
def upgradeRequest : RequestText where
  start := ascii "GET "
  target := ascii "/ws"
  version := ascii " HTTP/1.1\r\n"
  headers :=
    [.plain (ascii "Upgrade") 1 (ascii "websocket") (by decide) (by decide +kernel)
        (by decide +kernel),
      .plain (ascii "Connection") 1 (ascii "Upgrade") (by decide) (by decide +kernel)
        (by decide +kernel),
      .plain (ascii "Sec-WebSocket-Key") 1 (ascii "dGhlIHNhbXBsZSBub25jZQ==") (by decide)
        (by decide +kernel) (by decide +kernel)]
  body := []
  target_ne := by decide

def upgradePipeline : UpgradePipeline := ⟨HttpServerCodec.unlimited, .create (ascii "/ws")⟩

/-- The request is answered with 101, and the connection is upgraded. -/
theorem read_upgradeRequest :
    ∃ r, upgradePipeline.read (upgradeRequest.llhttp 1 1 1) {} (.copyOf upgradeRequest.text) =
        some r ∧ r.state = {} ∧
      responses r.actions =
        [WebSocketUpgradeHandler.switchProtocols (ascii "dGhlIHNhbXBsZSBub25jZQ==") []] := by
  have hread := upgradeRequest.channelRead_alone 1 1 1 rfl
  refine ⟨_, congrArg (Option.map _) hread, ?_, rfl⟩
  rfl

/-- A masked text frame whose masking key begins with the byte of an `A`. -/
def maskedText : WebSocketFrame :=
  { mask := true, maskingKey := #v[65, 0, 0, 0], payload := ascii "hi" }

theorem clientStream_maskedText : ClientStream [maskedText] :=
  ⟨⟨rfl, by decide, by decide⟩, fun _ => rfl, trivial⟩

/-- The frame cut behind so many bytes. -/
def maskedTextCut (n : ℕ) : List ByteBuf :=
  [.copyOf (maskedText.wire.take n), .copyOf (maskedText.wire.drop n)]

/-- **A key that begins like a request**: cut behind its two header bytes, the frame is never
delivered, because the HTTP codec keeps its second part. -/
theorem not_transparent_capital :
    ∃ r, upgradePipeline.read (upgradeRequest.llhttp 1 1 1) {} (.copyOf upgradeRequest.text) =
        some r ∧
      responses r.actions =
        [WebSocketUpgradeHandler.switchProtocols (ascii "dGhlIHNhbXBsZSBub25jZQ==") []] ∧
      Upgraded r.state ∧ ClientStream [maskedText] ∧
      (upgradePipeline.readAll (upgradeRequest.llhttp 1 1 1) r.state (maskedTextCut 2)).map
          (fun t => deliveredFrames (t.2.flatMap ReadResult.delivered)) = some [] ∧
      (upgradePipeline.readAll (upgradeRequest.llhttp 1 1 1) r.state
          [.copyOf maskedText.wire]).map
          (fun t => deliveredFrames (t.2.flatMap ReadResult.delivered)) =
        some [{ mask := true, payload := ascii "hi" }] ∧
      ¬ Transparent upgradePipeline (upgradeRequest.llhttp 1 1 1) r.state [maskedText]
        (.copyOf maskedText.wire) (maskedTextCut 2) := by
  obtain ⟨r, hread, hstate, hanswer⟩ := read_upgradeRequest
  refine ⟨r, hread, hanswer, ?_⟩
  rw [hstate]
  refine ⟨⟨rfl, rfl⟩, clientStream_maskedText, by decide +kernel, by decide +kernel, ?_⟩
  rintro ⟨st', rs, hrun, hactions, -⟩
  have hstarts := not_startsRequest_of_passed rfl (by decide) hrun hactions
  revert hstarts
  decide

/-- Cut behind its first byte, it is. -/
theorem transparent_maskedText :
    Transparent upgradePipeline (upgradeRequest.llhttp 1 1 1) {} [maskedText]
      (.copyOf maskedText.wire) (maskedTextCut 1) :=
  (transparent_iff ⟨rfl, rfl⟩ clientStream_maskedText (by decide) (by decide) (by decide)).mpr
    (by decide)

end capital

end UpgradePipeline

end XNetty
