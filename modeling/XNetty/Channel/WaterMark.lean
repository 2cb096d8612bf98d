import XNetty.Channel.Context

/-!
# The write watermark

A buffer behind the first handler is appended to the write buffer, and then the watermark is
tested: the connection is flushed only if it passes. A response that is longer than the watermark
closes its connection, whether or not the socket would have taken it.

## Main definitions

* `Connection.Bounded` — an open connection has no more waiting than the watermark.
* `Connection.bounded_flushWriteBuf_iff` — when a flush leaves it so.
* `Context.writeAndFlush_willing` — what becomes of a response and its connection.
-/

namespace XNetty

/-- A flush with this answer closes the connection. -/
def Answer.closes (keepAlive : Bool) : Answer → Bool
  | .again => false
  | .fail => true
  | .accept n => n = 0 || !keepAlive

namespace Connection

/-- The connection is closed, or has at most a watermark of bytes waiting. -/
def Bounded (c : Connection) : Prop :=
  c.closed = false → c.writeBuf.readableBytes ≤ c.writeBufWaterMark

/-- The next answer of the socket leaves at most a watermark of `n` bytes, or the connection is
closed then. -/
def Leaves (c : Connection) (n : ℕ) : Prop :=
  c.closed = true ∨ (c.socket.answers 0).closes c.keepAlive = true ∨
    n ≤ c.writeBufWaterMark + room (c.socket.answers 0)

/-! ## One flush -/

/-- All that a flush can do to the connection, with `taken` bytes on their way. -/
theorem flushWriteBuf_cases (c : Connection) (hleft : 0 < c.writeBuf.readableBytes) :
    c.flushWriteBuf.writeBuf.readableBytes =
        c.writeBuf.readableBytes - room (c.socket.answers 0) ∧
      c.flushWriteBuf.closed = (c.closed || (c.socket.answers 0).closes c.keepAlive) := by
  match hanswer : c.socket.answers 0 with
  | .again =>
    rw [flushWriteBuf_again hleft hanswer]
    exact ⟨rfl, (Bool.or_false _).symm⟩
  | .fail =>
    rw [flushWriteBuf, if_neg (by omega)]
    simp [Socket.write, hanswer, Answer.closes, room]
  | .accept 0 =>
    rw [flushWriteBuf, if_neg (by omega)]
    simp [Socket.write, hanswer, Answer.closes, room]
  | .accept (n + 1) =>
    obtain ⟨taken, htaken, hrest⟩ := exists_taken hleft n
    rw [flushWriteBuf, if_neg (by omega)]
    simp only [Socket.write, hanswer, htaken]
    split
    · cases c.keepAlive <;> simp [enableWriting, hrest, Answer.closes, room]
    next hnone =>
      have hclear : (c.writeBuf.discard (taken + 1)).clear.readableBytes =
          c.writeBuf.readableBytes - (n + 1) := by
        rw [← hrest]
        exact (Nat.eq_zero_of_not_pos hnone).symm
      cases c.keepAlive <;> simp [hclear, Answer.closes, room]

/-- A flush leaves the watermark alone, and tells nobody that it closes the connection. -/
theorem flushWriteBuf_keeps (c : Connection) :
    c.flushWriteBuf.writeBufWaterMark = c.writeBufWaterMark ∧
      c.flushWriteBuf.inactive = c.inactive := by
  unfold flushWriteBuf enableWriting
  split
  · exact ⟨rfl, rfl⟩
  · dsimp only
    split
    · exact ⟨rfl, rfl⟩
    · exact ⟨rfl, rfl⟩
    · exact ⟨rfl, rfl⟩
    · split <;> split <;> exact ⟨rfl, rfl⟩

theorem writeBufWaterMark_close (c : Connection) :
    c.close.writeBufWaterMark = c.writeBufWaterMark := by
  unfold close
  split <;> rfl

theorem writeBufWaterMark_fireWrite (c : Connection) (buf : ByteBuf) :
    (c.fireWrite buf).writeBufWaterMark = c.writeBufWaterMark := by
  unfold fireWrite
  dsimp only
  split
  · exact writeBufWaterMark_close _
  · exact (flushWriteBuf_keeps _).1

theorem writeBufWaterMark_onWrite (c : Connection) :
    c.onWrite.writeBufWaterMark = c.writeBufWaterMark := by
  have hloop (fuel : ℕ) (c : Connection) :
      (writeLoop fuel c).writeBufWaterMark = c.writeBufWaterMark := by
    induction fuel generalizing c with
    | zero => rfl
    | succ fuel ih =>
      unfold writeLoop
      split
      · rfl
      · dsimp only
        split
        · rfl
        · rfl
        · rfl
        · exact ih _
  unfold onWrite
  split
  · rfl
  · exact hloop _ c

/-- **A flush** leaves an open connection within the watermark exactly when the socket takes
enough, or the connection is closed. -/
theorem bounded_flushWriteBuf_iff (c : Connection) :
    c.flushWriteBuf.Bounded ↔ c.Leaves c.writeBuf.readableBytes := by
  unfold Bounded Leaves
  by_cases hleft : 0 < c.writeBuf.readableBytes
  · obtain ⟨hrest, hclosed⟩ := c.flushWriteBuf_cases hleft
    rw [hrest, hclosed, c.flushWriteBuf_keeps.1, Nat.sub_le_iff_le_add]
    cases c.closed <;> cases (c.socket.answers 0).closes c.keepAlive <;> simp
  · rw [flushWriteBuf_empty (by omega)]
    exact iff_of_true (fun _ => by omega) (.inr (.inr (by omega)))

theorem Bounded.flushWriteBuf {c : Connection} (h : c.Bounded) : c.flushWriteBuf.Bounded := by
  refine c.bounded_flushWriteBuf_iff.mpr ?_
  cases hclosed : c.closed with
  | true => exact .inl hclosed
  | false => exact .inr (.inr (Nat.le_add_right_of_le (h hclosed)))

/-- A write event only takes bytes off the buffer. -/
theorem readableBytes_writeLoop_le (fuel : ℕ) (c : Connection) :
    (writeLoop fuel c).writeBuf.readableBytes ≤ c.writeBuf.readableBytes := by
  induction fuel generalizing c with
  | zero => exact Nat.zero_le _
  | succ fuel ih =>
    unfold writeLoop
    split
    · exact Nat.zero_le _
    · dsimp only
      split
      · exact le_rfl
      · exact le_rfl
      · exact le_rfl
      next written _ _ =>
        refine (ih _).trans ?_
        dsimp only
        rw [ByteBuf.readableBytes_discard]
        exact Nat.sub_le _ _

theorem Bounded.onWrite {c : Connection} (h : c.Bounded) : c.onWrite.Bounded := by
  intro hopen
  rw [writeBufWaterMark_onWrite]
  have hbefore : c.closed = false := by
    cases hclosed : c.closed with
    | true =>
      rw [closed_onWrite hclosed] at hopen
      cases hopen
    | false => rfl
  have hle : c.onWrite.writeBuf.readableBytes ≤ c.writeBuf.readableBytes := by
    rw [Connection.onWrite, if_neg (by simp [hbefore])]
    exact readableBytes_writeLoop_le _ c
  exact hle.trans (h hbefore)

/-- **A buffer behind the first handler** never leaves more: the watermark is tested. -/
theorem bounded_fireWrite {c : Connection} (hmark : 0 < c.writeBufWaterMark) (buf : ByteBuf) :
    (c.fireWrite buf).Bounded := by
  unfold fireWrite
  dsimp only
  split
  · intro hopen
    rw [closed_close] at hopen
    cases hopen
  next hover =>
    have hle : ¬ c.writeBufWaterMark < (c.writeBuf.writeBytes buf.readable).readableBytes := by
      intro hlt
      exact hover (by simp [isWriteBufOverflow, hmark, hlt])
    refine (bounded_flushWriteBuf_iff _).mpr (.inr (.inr ?_))
    dsimp only
    omega

/-- The socket takes this many bytes at once, whenever it is asked. -/
def TakesAll (c : Connection) (n : ℕ) : Prop := ∀ i, n ≤ room (c.socket.answers i)

/-- An answer that takes a byte closes no connection that is kept alive. -/
theorem closes_of_room {answer : Answer} (h : 0 < room answer) : answer.closes true = false := by
  cases answer with
  | accept n =>
    have hn : n ≠ 0 := h.ne'
    simp [Answer.closes, hn]
  | again => cases h
  | fail => cases h

/-- **A flush to a socket that takes everything** sends everything. A connection that is kept
alive stays as it is. -/
theorem flushWriteBuf_takesAll {c : Connection} (hleft : 0 < c.writeBuf.readableBytes)
    (hsocket : c.TakesAll c.writeBuf.readableBytes) :
    c.flushWriteBuf.socket.accepted = c.output ∧ c.flushWriteBuf.writeBuf.readableBytes = 0 ∧
      (c.keepAlive = true → c.flushWriteBuf.closed = c.closed) := by
  obtain ⟨hrest, hclosed⟩ := c.flushWriteBuf_cases hleft
  have hroom := hsocket 0
  have hzero : c.flushWriteBuf.writeBuf.readableBytes = 0 := by omega
  have hout := c.flushWriteBuf_spec.1
  rw [output, (ByteBuf.readable_eq_nil_iff _).mpr hzero, List.append_nil] at hout
  refine ⟨hout, hzero, fun hka => ?_⟩
  rw [hclosed, hka, closes_of_room (by omega), Bool.or_false]

/-- The two flushes of a text within the watermark: the first sends it. -/
theorem flushed_of_le {c : Connection} (hle : c.writeBuf.readableBytes ≤ c.writeBufWaterMark)
    (hka : c.keepAlive = true) (hleft : 0 < c.writeBuf.readableBytes)
    (hsocket : c.TakesAll c.writeBuf.readableBytes) :
    let after := (if c.isWriteBufOverflow then c.close else c.flushWriteBuf).flushWriteBuf
    after.socket.accepted = c.output ∧ after.closed = c.closed ∧ after.inactive = c.inactive := by
  have hpass : c.isWriteBufOverflow = false := by
    simp only [isWriteBufOverflow, decide_eq_false_iff_not]
    omega
  obtain ⟨haccepted, hzero, hclosed⟩ := flushWriteBuf_takesAll hleft hsocket
  rw [hpass, if_neg (by simp), flushWriteBuf_empty hzero]
  exact ⟨haccepted, hclosed hka, c.flushWriteBuf_keeps.2⟩

/-- A longer text closes the connection in front of the flush that sends it. -/
theorem flushed_of_lt {c : Connection} (hmark : 0 < c.writeBufWaterMark)
    (hlt : c.writeBufWaterMark < c.writeBuf.readableBytes)
    (hsocket : c.TakesAll c.writeBuf.readableBytes) :
    let after := (if c.isWriteBufOverflow then c.close else c.flushWriteBuf).flushWriteBuf
    after.socket.accepted = c.output ∧ after.closed = true := by
  have hover : c.isWriteBufOverflow = true := by
    simp only [isWriteBufOverflow, decide_eq_true_eq]
    omega
  have hclose : c.close.writeBuf = c.writeBuf ∧ c.close.socket = c.socket := by
    unfold close
    split <;> exact ⟨rfl, rfl⟩
  have hsame : c.close.output = c.output := output_kept (by rw [hclose.2]) hclose.1
  rw [hover, if_pos rfl]
  obtain ⟨haccepted, -, -⟩ := flushWriteBuf_takesAll (c := c.close)
    (by rw [hclose.1]; omega) (by rw [TakesAll, hclose.1, hclose.2]; exact hsocket)
  exact ⟨haccepted.trans hsame, closed_flushWriteBuf c.closed_close⟩

end Connection

/-! ## Responses -/

namespace Context

open ChannelPipeline (Attached)

variable {p : ChannelPipeline WireHandler} {c : Connection}

theorem writeAndFlush_eq (h : Attached p) (hhead : p.kinds.head? = some .httpServerCodec)
    (resp : HttpResponse) : writeAndFlush p c resp = c.writeAndFlush resp := by
  have hcodec : .httpServerCodec ∈ p.kinds := List.mem_of_mem_head? hhead
  have hout : ChannelPipeline.HeadOutbound p.kinds = true := by
    rw [ChannelPipeline.HeadOutbound, hhead]
    rfl
  unfold writeAndFlush Connection.writeAndFlush
  dsimp only
  rw [fireWrite_response h hcodec, if_pos hout]

/-- **A kept-alive response** on a connection with nothing waiting, whatever handlers stand behind
the codec: a socket that takes everything takes all of it, and the connection stays open if and
only if the text is no longer than the watermark. -/
theorem writeAndFlush_willing (h : Attached p) (hhead : p.kinds.head? = some .httpServerCodec)
    (hmark : 0 < c.writeBufWaterMark) (hopen : c.closed = false) (hka : c.keepAlive = true)
    (hempty : c.writeBuf.readableBytes = 0) (resp : HttpResponse)
    (hsocket : c.TakesAll (resp.setKeepAlive true).serializedSize) :
    let after := writeAndFlush p c resp
    after.socket.accepted = c.socket.accepted ++ (resp.setKeepAlive true).serialized ∧
      (after.closed = false ∧ after.inactive = c.inactive ↔
        (resp.setKeepAlive true).serializedSize ≤ c.writeBufWaterMark) := by
  have hwrite : writeAndFlush p c resp =
      (c.fireResponse (resp.setKeepAlive true)).flushWriteBuf := by
    rw [writeAndFlush_eq h hhead, Connection.writeAndFlush, hka]
    rfl
  have hneed := c.readableBytes_loaded (resp.setKeepAlive true).serialized
  rw [hempty, HttpResponse.length_serialized, Nat.zero_add] at hneed
  have hout : (c.loaded (resp.setKeepAlive true).serialized).output =
      c.socket.accepted ++ (resp.setKeepAlive true).serialized := by
    have hnil := (ByteBuf.readable_eq_nil_iff _).mpr hempty
    simp [Connection.output, Connection.loaded, hnil]
  have hpos := List.length_pos_iff.mpr (resp.setKeepAlive true).serialized_ne_nil
  rw [HttpResponse.length_serialized] at hpos
  dsimp only
  rw [hwrite, Connection.fireResponse_eq, ← hout]
  rw [← hneed] at hsocket hpos ⊢
  by_cases hle : (c.loaded (resp.setKeepAlive true).serialized).writeBuf.readableBytes ≤
      c.writeBufWaterMark
  · obtain ⟨haccepted, hclosed, hinactive⟩ := Connection.flushed_of_le
      (c := c.loaded (resp.setKeepAlive true).serialized) hle hka hpos hsocket
    exact ⟨haccepted, iff_of_true ⟨hclosed.trans hopen, hinactive⟩ hle⟩
  · obtain ⟨haccepted, hclosed⟩ := Connection.flushed_of_lt
      (c := c.loaded (resp.setKeepAlive true).serialized) hmark (not_le.mp hle) hsocket
    refine ⟨haccepted, iff_of_false (fun hstays => ?_) hle⟩
    rw [hclosed] at hstays
    cases hstays.1

/-- A connection with a watermark, and a socket that takes a megabyte at once. -/
def marked (writeBufWaterMark : ℕ) : Connection :=
  { socket := { answers := fun _ => .accept 1048576 }, writeBufWaterMark }

theorem takesAll_marked {n : ℕ} (h : n ≤ 1048576) (writeBufWaterMark : ℕ) :
    (marked writeBufWaterMark).TakesAll n := fun _ => h

def codecPipeline : ChannelPipeline WireHandler :=
  pipelineOf [(ascii "codec", .httpServerCodec), (ascii "app", .inbound)]

/-- The response without a body, on the default watermark. -/
theorem writeAndFlush_willing_default :
    let after := writeAndFlush codecPipeline (marked 65536) {}
    after.socket.accepted = (({} : HttpResponse).setKeepAlive true).serialized ∧
      (after.closed = false ∧ after.inactive = 0 ↔
        (({} : HttpResponse).setKeepAlive true).serializedSize ≤ 65536) :=
  writeAndFlush_willing (p := codecPipeline) (c := marked 65536) (attached_pipelineOf _) rfl
    (by decide) rfl rfl rfl {} (takesAll_marked (by decide +kernel) 65536)

/-- The same on a watermark of 16: all of it is sent, but the connection is closed. -/
theorem not_writeAndFlush_stays_open :
    let after := writeAndFlush codecPipeline (marked 16) {}
    (marked 16).TakesAll (({} : HttpResponse).setKeepAlive true).serializedSize ∧
      after.socket.accepted = (({} : HttpResponse).setKeepAlive true).serialized ∧
      after.closed = true ∧ after.inactive = 1 :=
  ⟨takesAll_marked (by decide +kernel) 16, by decide +kernel, by decide +kernel, by decide +kernel⟩

end Context

end XNetty
