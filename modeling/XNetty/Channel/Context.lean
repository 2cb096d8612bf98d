import XNetty.Channel.Drain
import XNetty.Channel.Propagation
import XNetty.Http.Outbound

/-!
# Writing through a pipeline

The writing calls of a `Context` go through the outbound handlers of the connection's pipeline.
Only what the first handler of all passes on is appended to the write buffer, so a write comes
there exactly when that handler is outbound.

## Main definitions

* `WireHandler` — the handlers of a pipeline that encodes nothing but responses.
* `Context.writeAndFlush`, `Context.writeHeaders`, `Context.writeBody` — the calls.
* `Context.write_output_iff` — when a write is appended, once.
-/

namespace XNetty

/-- Every outbound handler passes each message on with `ctx->fireWrite`; all but the codec pass it
on as it is. -/
inductive WireHandler where
  | inbound
  | outbound
  | duplex
  | httpServerCodec
  deriving DecidableEq

namespace WireHandler

instance : ChannelHandler WireHandler where
  isInbound
    | .outbound => false
    | _ => true
  isOutbound
    | .inbound => false
    | _ => true

/-- What the handler's `write` passes on. -/
def write : WireHandler → Msg → Msg
  | .httpServerCodec, msg => HttpServerCodec.write msg
  | _, msg => msg

/-- A buffer goes through every handler as it is. -/
theorem foldl_write_buffer (seen : List WireHandler) (buf : ByteBuf) :
    seen.foldl (fun msg h => h.write msg) (.buffer buf) = .buffer buf := by
  induction seen with
  | nil => rfl
  | cons h seen ih => cases h <;> exact ih

/-- The first codec that a response comes to makes a buffer of it. -/
theorem foldl_write_response {seen : List WireHandler} (hcodec : .httpServerCodec ∈ seen)
    (resp : HttpResponse) :
    seen.foldl (fun msg h => h.write msg) (.response resp) = .buffer resp.toByteBuf := by
  induction seen with
  | nil => cases hcodec
  | cons h seen ih =>
    cases h with
    | httpServerCodec => exact foldl_write_buffer seen resp.toByteBuf
    | _ => exact ih (by simpa using hcodec)

end WireHandler

namespace Context

variable (p : ChannelPipeline WireHandler) (c : Connection)

/-- `ChannelHandlerContext::fireWrite` at index 0. -/
def fireWriteFirst (ctx : ChannelHandlerContext WireHandler) : Msg → Connection
  | .buffer buf => if ctx.attached then c.fireWrite buf else c
  | _ => c

/-- `ChannelPipeline::fireWrite`, with what the first handler passes on. -/
def fireWrite (msg : Msg) : Connection :=
  match p.handlers, p.fireWrite (fun h msg => h.write msg) msg with
  | e :: _, some (_, some msg) => fireWriteFirst c e.ctx msg
  | _, _ => c

def writeAndFlush (resp : HttpResponse) : Connection :=
  let resp := resp.setKeepAlive c.keepAlive
  let ka := c.keepAlive
  let c := fireWrite p c (.response resp)
  let c := if !ka then c.setKeepAlive false else c
  c.flushWriteBuf

def writeHeaders (resp : HttpResponse) : Connection :=
  let buf := (resp.serializeHeaders (.ofCapacity 512)).1
  (fireWrite p c (.buffer buf)).flushWriteBuf

def writeBody (data : Bytes) : Connection :=
  let buf := (ByteBuf.ofCapacity data.length).writeBytes data
  (fireWrite p c (.buffer buf)).flushWriteBuf

/-- A call of one of the three. -/
inductive Write where
  | writeAndFlush (resp : HttpResponse)
  | writeHeaders (resp : HttpResponse)
  | writeBody (data : Bytes)

def write : Write → Connection
  | .writeAndFlush resp => writeAndFlush p c resp
  | .writeHeaders resp => writeHeaders p c resp
  | .writeBody data => writeBody p c data

/-- The bytes to be written. -/
def Write.bytes (keepAlive : Bool) : Write → Bytes
  | .writeAndFlush resp => (resp.setKeepAlive keepAlive).serialized
  | .writeHeaders resp => resp.serializedHeaders
  | .writeBody data => data

end Context

namespace ChannelPipeline

/-! ## Attached pipelines -/

/-- The handlers in order. -/
def kinds {H : Type*} (p : ChannelPipeline H) : List H := p.handlers.map (·.handler)

/-- Every context knows its place and the connection's context. -/
structure Attached {H : Type*} [ChannelHandler H] (p : ChannelPipeline H) : Prop where
  linked : Linked p.handlers
  attached : ∀ e ∈ p.handlers, e.ctx.attached = true

/-- **Setting up a connection** attaches the pipeline that has been configured. -/
theorem attached_setContext {H : Type*} [ChannelHandler H] {p : ChannelPipeline H}
    (h : Linked p.handlers) : Attached p.setContext := by
  constructor
  · intro i e he
    rw [setContext, List.getElem?_map] at he
    obtain ⟨d, hd, rfl⟩ := Option.map_eq_some_iff.mp he
    have hat := h i d hd
    exact ⟨hat.index, hat.name, hat.handler, hat.present, hat.inbound, hat.outbound⟩
  · intro e he
    obtain ⟨d, -, rfl⟩ := List.mem_map.mp he
    rfl

theorem attached_run {H : Type*} [ChannelHandler H] (edits : List (Edit H)) :
    Attached (run {} edits).setContext :=
  attached_setContext (run_linked (fun _ _ he => absurd he (by simp)) edits).1

end ChannelPipeline

namespace Context

open ChannelPipeline (Attached HeadOutbound)

variable {p : ChannelPipeline WireHandler} {c : Connection}

/-! ## What arrives -/

/-- **A message** goes through the outbound handlers in reverse order. What they make of it comes
to the write buffer if it is a buffer and the first handler is one of them, and is dropped
otherwise. -/
theorem fireWrite_eq (h : Attached p) (msg : Msg) :
    fireWrite p c msg =
      if HeadOutbound p.kinds then
        match (p.kinds.reverse.filter ChannelHandler.isOutbound).foldl
          (fun msg (h : WireHandler) => h.write msg) msg with
        | .buffer buf => c.fireWrite buf
        | _ => c
      else c := by
  have hwrite := ChannelPipeline.fireWrite_eq h.linked (fun h msg => h.write msg) msg
  dsimp only at hwrite
  rw [← ChannelPipeline.kinds] at hwrite
  unfold fireWrite
  rw [hwrite]
  cases hentries : p.handlers with
  | nil =>
    have hhead : HeadOutbound p.kinds = false := by
      rw [ChannelPipeline.kinds, hentries]
      rfl
    rw [hhead]
    rfl
  | cons e es =>
    have he := h.attached e (by rw [hentries]; exact List.mem_cons_self)
    by_cases hhead : HeadOutbound p.kinds = true
    · rw [if_pos hhead, if_pos hhead]
      dsimp only
      unfold fireWriteFirst
      rw [he]
      rfl
    · rw [if_neg hhead, if_neg hhead]

theorem fireWrite_buffer (h : Attached p) (buf : ByteBuf) :
    fireWrite p c (.buffer buf) = if HeadOutbound p.kinds then c.fireWrite buf else c := by
  rw [fireWrite_eq h, WireHandler.foldl_write_buffer]

theorem fireWrite_response (h : Attached p) (hcodec : .httpServerCodec ∈ p.kinds)
    (resp : HttpResponse) :
    fireWrite p c (.response resp) =
      if HeadOutbound p.kinds then c.fireResponse resp else c := by
  have hseen : .httpServerCodec ∈ p.kinds.reverse.filter ChannelHandler.isOutbound :=
    List.mem_filter.mpr ⟨List.mem_reverse.mpr hcodec, rfl⟩
  rw [fireWrite_eq h, WireHandler.foldl_write_response hseen]
  rfl

/-! ## What is appended -/

/-- Only a response has to be encoded. -/
def Write.Encoded (p : ChannelPipeline WireHandler) : Write → Prop
  | .writeAndFlush _ => .httpServerCodec ∈ p.kinds
  | _ => True

theorem output_setKeepAlive (ka ka' : Bool) (d : Connection) :
    (if !ka then d.setKeepAlive ka' else d).output = d.output := by
  split <;> rfl

/-- A buffer that comes to the write buffer, or does not, and the flush behind it. -/
theorem output_flushed (arrives : Bool) (buf : ByteBuf) :
    (if arrives then c.fireWrite buf else c).output =
      c.output ++ if arrives then buf.readable else [] := by
  cases arrives with
  | true => exact (c.fireWrite_spec buf).1
  | false => exact (List.append_nil _).symm

/-- **A write** adds its bytes to the output, or nothing. -/
theorem write_output (h : Attached p) (c : Connection) {w : Write} (hcodec : w.Encoded p) :
    (write p c w).output =
      c.output ++ if HeadOutbound p.kinds then w.bytes c.keepAlive else [] := by
  cases w with
  | writeAndFlush resp =>
    have harrives := output_flushed (c := c) (HeadOutbound p.kinds)
      (resp.setKeepAlive c.keepAlive).toByteBuf
    rw [HttpResponse.readable_toByteBuf] at harrives
    have hwrite := fireWrite_response (c := c) h hcodec (resp.setKeepAlive c.keepAlive)
    rw [write, writeAndFlush, (Connection.flushWriteBuf_spec _).1, output_setKeepAlive, hwrite]
    exact harrives
  | writeHeaders resp =>
    have harrives := output_flushed (c := c) (HeadOutbound p.kinds)
      (resp.serializeHeaders (.ofCapacity 512)).1
    rw [HttpResponse.readable_serializeHeaders, ByteBuf.readable_ofCapacity,
      List.nil_append] at harrives
    rw [write, writeHeaders, (Connection.flushWriteBuf_spec _).1, fireWrite_buffer h]
    exact harrives
  | writeBody data =>
    have harrives := output_flushed (c := c) (HeadOutbound p.kinds)
      ((ByteBuf.ofCapacity data.length).writeBytes data)
    rw [ByteBuf.readable_writeBytes, ByteBuf.readable_ofCapacity, List.nil_append] at harrives
    rw [write, writeBody, (Connection.flushWriteBuf_spec _).1, fireWrite_buffer h]
    exact harrives

/-- **Delivery.** On any pipeline attached to a connection, with a codec if a response is written:
the bytes of a write are appended to the write buffer, once, if and only if the first handler of
the pipeline is outbound or there are no bytes. -/
theorem write_output_iff (h : Attached p) (c : Connection) {w : Write} (hcodec : w.Encoded p) :
    (write p c w).output = c.output ++ w.bytes c.keepAlive ↔
      HeadOutbound p.kinds = true ∨ w.bytes c.keepAlive = [] := by
  rw [write_output h c hcodec, List.append_cancel_left_eq]
  by_cases hhead : HeadOutbound p.kinds = true
  · exact iff_of_true (if_pos hhead) (.inl hhead)
  · rw [if_neg hhead, or_iff_right hhead]
    exact eq_comm

/-- The handlers as `addLast` puts them, on a connection that has been set up. -/
def pipelineOf (handlers : List (Bytes × WireHandler)) : ChannelPipeline WireHandler :=
  (ChannelPipeline.run {} (handlers.map fun kv => .addLast kv.1 kv.2)).setContext

theorem attached_pipelineOf (handlers : List (Bytes × WireHandler)) :
    Attached (pipelineOf handlers) := ChannelPipeline.attached_run _

/-- A connection without a watermark whose socket takes what it is offered. -/
def willing : Connection :=
  { socket := { answers := fun _ => .accept 1000 }, writeBufWaterMark := 0 }

/-- The codec in front of a handler that only reads. -/
theorem write_output_codecFirst :
    (write (pipelineOf [(ascii "codec", .httpServerCodec), (ascii "app", .inbound)]) willing
        (.writeAndFlush {})).output =
      willing.output ++ (Write.writeAndFlush {}).bytes true :=
  (write_output_iff (w := .writeAndFlush {}) (attached_pipelineOf _) willing
    List.mem_cons_self).mpr (.inl rfl)

/-- A handler that only reads in front of the codec: the response is dropped. -/
theorem not_write_output_readerFirst :
    let p := pipelineOf [(ascii "log", .inbound), (ascii "codec", .httpServerCodec)]
    Attached p ∧ .httpServerCodec ∈ p.kinds ∧ willing.closed = false ∧
      (write p willing (.writeAndFlush {})).output = [] ∧
      (write p willing (.writeAndFlush {})).output ≠
        willing.output ++ (Write.writeAndFlush {}).bytes true :=
  ⟨attached_pipelineOf _, by decide, rfl, by decide +kernel, by decide +kernel⟩

end Context

end XNetty
