import XNetty.Channel.WaterMark
import XNetty.Ssl.Pipeline

/-!
# What may wait

Three functions append to a connection's write buffer: `ChannelHandlerContext::fireWrite` behind
the first handler, `WebSocketCodec::write` and `SslHandler::flushEncrypted`. Only the first tests
the watermark.

## Main definitions

* `Backlog.landing` — which of them a message comes to.
* `Backlog.run` — writes, and what else happens on the connection.
* `Backlog.Within` — what one step leaves waiting is at most the watermark.
* `Backlog.run_bounded_iff` — when no write of a run leaves more.
-/

namespace XNetty

namespace Backlog

/-- A handler in front of the one that writes, as it acts on one message. -/
inductive FrontHandler where
  | inbound
  /-- It passes on what it makes of the message. -/
  | passing (act : Msg → Msg)
  | webSocketCodec
  /-- The head of the pipeline. -/
  | sslHandler

/-- What a message comes to. -/
inductive Landing where
  /-- `fireWrite` of the first handler's context. -/
  | first (msg : Msg)
  | codec (frame : WebSocketFrame)
  | sslHandler (msg : Msg)
  | lost

/-- The way of a message through the handlers in front, the nearest first. -/
def landing : List FrontHandler → Msg → Landing
  | [], msg => .first msg
  | .inbound :: [], _ => .lost
  | .inbound :: below, msg => landing below msg
  | .passing act :: below, msg => landing below (act msg)
  | .webSocketCodec :: _, .frame frame => .codec frame
  | .webSocketCodec :: below, msg => landing below msg
  | .sslHandler :: _, msg => .sslHandler msg

/-- `fireWrite` of a handler's context. Without an `SslHandler` the library is never called. -/
def fireWrite (t : TlsConnection) (front : List FrontHandler) (msg : Msg) : TlsConnection :=
  match landing front msg with
  | .first (.buffer buf) =>
    { t with conn := t.conn.fireWrite buf, appended := t.appended ++ buf.readable }
  | .first _ => t
  | .codec frame => t.writeFrame frame
  | .sslHandler msg => t.write msg
  | .lost => t

/-- What happens on a connection. -/
inductive Op where
  | fireWrite (front : List FrontHandler) (msg : Msg)
  /-- Bytes come to an `SslHandler`. -/
  | channelRead (enc : ByteBuf)
  | flush
  | onWrite
  | close
  | setKeepAlive (ka : Bool)

def step (t : TlsConnection) : Op → TlsConnection
  | .fireWrite front msg => fireWrite t front msg
  | .channelRead enc => (t.channelRead enc).1
  | .flush => t.flush
  | .onWrite => { t with conn := t.conn.onWrite }
  | .close => t.close
  | .setKeepAlive ka => { t with conn := t.conn.setKeepAlive ka }

def run (t : TlsConnection) (ops : List Op) : TlsConnection := ops.foldl step t

/-! ## What a write leaves -/

/-- The bytes that the handler encrypts wait behind those of the buffer and the BIO. -/
def WithinSsl (t : TlsConnection) : Msg → Prop
  | .buffer _ =>
    let answer := t.ssl.call.1
    let pend := t.ssl.outBio.length + answer.produced.length
    if !t.handshakeDone then t.conn.Bounded
    else if answer.ret > 0 then
      if pend = 0 then t.conn.Bounded
      else t.conn.Leaves (t.conn.writeBuf.readableBytes + pend)
    else True
  | _ => t.conn.Bounded

/-- What one step leaves waiting is at most the watermark. A write behind the first handler is
tested, and one that appends nothing leaves what it finds. -/
def Within (t : TlsConnection) : Op → Prop
  | .fireWrite front msg =>
    match landing front msg with
    | .first (.buffer _) => True
    | .first _ => t.conn.Bounded
    | .codec frame => t.conn.Leaves (encodeFrame frame).readable.length
    | .sslHandler msg => WithinSsl t msg
    | .lost => t.conn.Bounded
  | _ => True

end Backlog

/-! ## Each appender -/

namespace TlsConnection

/-- **The loop of `flushEncrypted`** moves all of the outgoing BIO behind what is waiting. -/
theorem flushLoop_conn {fuel : ℕ} {t : TlsConnection} (hfuel : t.ssl.outBio.length ≤ fuel) :
    (flushLoop fuel t).2 = t.ssl.outBio.length ∧
      ∃ writeBuf, (flushLoop fuel t).1.conn = { t.conn with writeBuf } ∧
        writeBuf.readableBytes = t.conn.writeBuf.readableBytes + t.ssl.outBio.length := by
  induction fuel generalizing t with
  | zero => exact ⟨by rw [flushLoop]; omega, t.conn.writeBuf, rfl, by omega⟩
  | succ fuel ih =>
    unfold flushLoop
    dsimp only
    by_cases hempty : t.ssl.outBio.length = 0
    · rw [if_pos hempty]
      exact ⟨hempty.symm, t.conn.writeBuf, rfl, by omega⟩
    rw [if_neg hempty]
    generalize hlen : min t.ssl.outBio.length 4096 = len
    have hread := t.length_bioRead (hlen ▸ Nat.min_le_left _ _)
    have hleft : ((t.bioRead len).2.append (t.bioRead len).1).ssl.outBio.length =
        t.ssl.outBio.length - len := t.length_outBio_bioRead len
    have hloaded : ((t.bioRead len).2.append (t.bioRead len).1).conn =
        t.conn.loaded (t.bioRead len).1 := rfl
    obtain ⟨hwritten, writeBuf, hconn, hsize⟩ :=
      @ih ((t.bioRead len).2.append (t.bioRead len).1) (by omega)
    rw [if_neg (by omega), hwritten, hread, hleft]
    refine ⟨by omega, writeBuf, hconn, ?_⟩
    rw [hsize, hleft, hloaded, Connection.readableBytes_loaded, hread]
    omega

/-- `flushEncrypted` flushes if it has moved anything. -/
theorem bounded_flushEncrypted_iff (t : TlsConnection) :
    t.flushEncrypted.conn.Bounded ↔
      if t.ssl.outBio.length = 0 then t.conn.Bounded
      else t.conn.Leaves (t.conn.writeBuf.readableBytes + t.ssl.outBio.length) := by
  obtain ⟨hwritten, writeBuf, hconn, hsize⟩ := t.flushLoop_conn le_rfl
  unfold flushEncrypted
  dsimp only
  rw [hwritten]
  by_cases hempty : t.ssl.outBio.length = 0
  · rw [if_neg (by omega), if_pos hempty, hconn]
    rw [hempty, Nat.add_zero] at hsize
    unfold Connection.Bounded
    rw [hsize]
  · rw [if_pos (by omega), if_neg hempty, flush, hconn, ← hsize]
    exact Connection.bounded_flushWriteBuf_iff _

/-- **The SSL handler** tests nothing. -/
theorem bounded_write_iff (t : TlsConnection) (msg : Msg) :
    (t.write msg).conn.Bounded ↔ Backlog.WithinSsl t msg := by
  unfold write Backlog.WithinSsl
  cases msg with
  | buffer plain =>
    dsimp only
    split
    · rfl
    have hcall : (t.sslWrite plain.readable).1 = t.ssl.call.1 := rfl
    rw [hcall]
    split
    next hret =>
      have hpend : (t.sslWrite plain.readable).2.ssl.outBio.length =
          t.ssl.outBio.length + t.ssl.call.1.produced.length := by
        unfold sslWrite Ssl.call
        cases hanswers : t.ssl.answers with
        | nil => simp [Ssl.call, hanswers] at hret
        | cons a rest => simp
      rw [bounded_flushEncrypted_iff, hpend]
      rfl
    · refine iff_of_true (fun hopen => ?_) trivial
      rw [handleError, close, Connection.closed_close] at hopen
      cases hopen
  | _ => split <;> rfl

/-- **The WebSocket codec** tests nothing either, and the frame waits alone. -/
theorem bounded_writeFrame_iff (t : TlsConnection) (frame : WebSocketFrame) :
    (t.writeFrame frame).conn.Bounded ↔ t.conn.Leaves (encodeFrame frame).readable.length := by
  have hsize : (t.conn.writeBuf.clear.writeBytes (encodeFrame frame).readable).readableBytes =
      (encodeFrame frame).readable.length := by
    rw [← ByteBuf.length_readable]
    simp
  rw [← hsize]
  exact Connection.bounded_flushWriteBuf_iff
    { t.conn with writeBuf := t.conn.writeBuf.clear.writeBytes (encodeFrame frame).readable }

end TlsConnection

namespace Backlog

/-! ## Runs -/

/-- A step keeps the watermark. -/
theorem steps_mark : TlsConnection.Steps fun t t' =>
    t'.conn.writeBufWaterMark = t.conn.writeBufWaterMark where
  refl _ := rfl
  trans h h' := h'.trans h
  library _ _ := rfl
  flags _ _ _ := rfl
  draw _ _ _ := rfl
  flush t := t.conn.flushWriteBuf_keeps.1
  close t := t.conn.writeBufWaterMark_close

theorem step_mark (t : TlsConnection) (op : Op) :
    (step t op).conn.writeBufWaterMark = t.conn.writeBufWaterMark := by
  cases op with
  | fireWrite front msg =>
    unfold step fireWrite
    dsimp only
    split
    · exact t.conn.writeBufWaterMark_fireWrite _
    · rfl
    · exact (Connection.flushWriteBuf_keeps _).1
    · exact steps_mark.write t _
    · rfl
  | channelRead enc => exact steps_mark.channelRead t enc
  | flush => exact steps_mark.flush t
  | onWrite => exact t.conn.writeBufWaterMark_onWrite
  | close => exact steps_mark.close t
  | setKeepAlive ka => rfl

/-- **One write** leaves an open connection within the watermark exactly when it is tested, or the
socket takes enough of what it appends. -/
theorem bounded_fireWrite_iff {t : TlsConnection} (hmark : 0 < t.conn.writeBufWaterMark)
    (front : List FrontHandler) (msg : Msg) :
    (fireWrite t front msg).conn.Bounded ↔ Within t (.fireWrite front msg) := by
  unfold fireWrite Within
  dsimp only
  generalize landing front msg = l
  cases l with
  | first msg =>
    cases msg with
    | buffer buf => exact iff_of_true (Connection.bounded_fireWrite hmark buf) trivial
    | _ => rfl
  | codec frame => exact t.bounded_writeFrame_iff frame
  | sslHandler msg => exact t.bounded_write_iff msg
  | lost => rfl

theorem run_mark (t : TlsConnection) (ops : List Op) :
    (run t ops).conn.writeBufWaterMark = t.conn.writeBufWaterMark :=
  Ledger.foldl_preserves (fun t' => t'.conn.writeBufWaterMark = t.conn.writeBufWaterMark)
    (fun t' op h => (step_mark t' op).trans h) rfl ops

/-- **What may wait.** In every run of a connection with a watermark, whatever the handlers, the
library and the socket do: whenever a write returns, the connection is closed or has at most the
watermark waiting, if and only if every write behind a WebSocket codec or an SSL handler leaves at
most that much of what it appends, and one that appends nothing finds no more. -/
theorem run_bounded_iff {t : TlsConnection} (hmark : 0 < t.conn.writeBufWaterMark)
    (ops : List Op) :
    (∀ done front msg, done ++ [.fireWrite front msg] <+: ops →
      (run t (done ++ [.fireWrite front msg])).conn.Bounded) ↔
      Ledger.Along step Within t ops := by
  rw [Ledger.along_iff_prefix]
  have hlast (done : List Op) (front : List FrontHandler) (msg : Msg) :
      (run t (done ++ [.fireWrite front msg])).conn.Bounded ↔
        Within (run t done) (.fireWrite front msg) := by
    rw [run, List.foldl_append]
    exact bounded_fireWrite_iff (hmark.trans_eq (run_mark t done).symm) front msg
  constructor
  · intro h done op hdone
    cases op with
    | fireWrite front msg => exact (hlast done front msg).mp (h done front msg hdone)
    | _ => trivial
  · intro h done front msg hdone
    exact (hlast done front msg).mpr (h done (.fireWrite front msg) hdone)

/-- A connection between a codec and a client that takes no byte. -/
def stalled (writeBufWaterMark : ℕ) (answers : List SslAnswer) : TlsConnection where
  conn := { socket := { answers := fun _ => .again }, writeBufWaterMark }
  ssl := { answers }

/-- A response through a codec at the head of the pipeline. -/
def respond : Op := .fireWrite [.passing HttpServerCodec.write] (.response {})

/-- Two responses to a client that takes no byte: the second one closes the connection. -/
theorem run_bounded_twoResponses : (run (stalled 64 []) ([respond] ++ [respond])).conn.Bounded :=
  (run_bounded_iff (t := stalled 64 []) (by decide) ([respond] ++ [respond])).mpr
    (And.intro trivial (And.intro trivial trivial)) [respond] _ _ (List.prefix_refl _)

/-- A frame of 20 bytes behind a WebSocket codec, and a record of 40 behind an SSL handler, both
with a watermark of 8. -/
theorem not_run_bounded :
    let framed := run (stalled 8 []) [.fireWrite [.webSocketCodec, .passing HttpServerCodec.write]
      (.frame { payload := List.replicate 20 97 })]
    let answers : List SslAnswer :=
      [{ ret := 1 }, { ret := -1 }, { ret := 1, produced := List.replicate 40 23 }]
    let sealed := run (stalled 8 answers) [.channelRead (.copyOf [22]),
      .fireWrite [.passing HttpServerCodec.write, .sslHandler] (.buffer (.copyOf [97]))]
    (framed.conn.closed = false ∧ framed.conn.writeBuf.readableBytes = 22) ∧
      sealed.conn.closed = false ∧ sealed.conn.writeBuf.readableBytes = 40 := by
  decide +kernel

/-! ## Pipelines that are tested -/

/-- The write comes to the first handler, or nowhere. -/
def Tested : Op → Prop
  | .fireWrite front msg =>
    match landing front msg with
    | .first _ | .lost => True
    | _ => False
  | .channelRead _ => False
  | _ => True

theorem step_bounded {t : TlsConnection} (hmark : 0 < t.conn.writeBufWaterMark)
    (h : t.conn.Bounded) {op : Op} (hop : Tested op) : (step t op).conn.Bounded := by
  cases op with
  | fireWrite front msg =>
    refine (bounded_fireWrite_iff hmark front msg).mpr ?_
    unfold Tested at hop
    unfold Within
    dsimp only at hop ⊢
    generalize landing front msg = l at hop ⊢
    cases l with
    | first msg =>
      cases msg with
      | buffer buf => trivial
      | _ => exact h
    | lost => exact h
    | _ => exact hop.elim
  | channelRead enc => exact hop.elim
  | flush => exact h.flushWriteBuf
  | onWrite => exact h.onWrite
  | close =>
    intro hopen
    rw [step, TlsConnection.close, Connection.closed_close] at hopen
    cases hopen
  | setKeepAlive ka => exact h

/-- **A pipeline without the two** keeps within the watermark in every run. -/
theorem run_bounded_of_tested {t : TlsConnection} (hmark : 0 < t.conn.writeBufWaterMark)
    (h : t.conn.Bounded) {ops : List Op} (hops : ∀ op ∈ ops, Tested op) :
    (run t ops).conn.Bounded := by
  induction ops generalizing t with
  | nil => exact h
  | cons op ops ih =>
    rw [List.forall_mem_cons] at hops
    exact ih (hmark.trans_eq (step_mark t op).symm) (step_bounded hmark h hops.1) hops.2

/-! ## The pipelines -/

theorem landing_inbound {below : List FrontHandler} (h : below ≠ []) (msg : Msg) :
    landing (.inbound :: below) msg = landing below msg := by
  obtain ⟨k, ks, rfl⟩ := List.exists_cons_of_ne_nil h
  rfl

/-- A handler behind an `SslHandler`. -/
def frontOf (compress : ContentEncoding → Bytes → Bytes) (peer : CompressorHandler.PeerState) :
    TlsPipeline.Handler → FrontHandler
  | .httpServerCodec => .passing HttpServerCodec.write
  | .compressor => .passing (CompressorHandler.write compress peer)
  | .webSocketCodec => .webSocketCodec
  | _ => .inbound

/-- **Pipelines behind an SSL handler** write like this. -/
theorem fireWriteFrom_eq (compress : ContentEncoding → Bytes → Bytes)
    (below : List TlsPipeline.Handler) (s : TlsPipeline.State) (msg : Msg) :
    (TlsPipeline.fireWriteFrom compress below s msg).tls =
      fireWrite s.tls (below.map (frontOf compress s.peer) ++ [.sslHandler]) msg := by
  induction below generalizing msg with
  | nil => rfl
  | cons k below ih =>
    have hskip : fireWrite s.tls (.inbound :: (below.map (frontOf compress s.peer) ++
        [.sslHandler])) msg =
        fireWrite s.tls (below.map (frontOf compress s.peer) ++ [.sslHandler]) msg := by
      unfold fireWrite
      rw [landing_inbound (by simp)]
    cases k with
    | httpServerCodec => exact ih _
    | compressor => exact ih _
    | webSocketCodec =>
      cases msg with
      | frame frame => rfl
      | _ => exact ih _
    | _ => exact (ih msg).trans hskip.symm

/-- A handler that encodes nothing but responses. -/
def frontOfWire : WireHandler → FrontHandler
  | .inbound => .inbound
  | h => .passing h.write

theorem landing_wire {hs : List WireHandler} (hne : hs ≠ []) (msg : Msg) :
    landing (hs.map frontOfWire) msg =
      if hs.getLast?.any ChannelHandler.isOutbound then
        .first ((hs.filter ChannelHandler.isOutbound).foldl (fun msg h => h.write msg) msg)
      else .lost := by
  induction hs generalizing msg with
  | nil => exact absurd rfl hne
  | cons h hs ih =>
    by_cases hlast : hs = []
    · subst hlast
      cases h <;> rfl
    · have hback : (h :: hs).getLast? = hs.getLast? := List.getLast?_cons_of_ne_nil hlast
      rw [hback]
      cases h with
      | inbound =>
        rw [List.map_cons, frontOfWire, landing_inbound (by simpa using hlast), ih hlast]
        rfl
      | _ => exact ih hlast _

/-- **Other pipelines** write like this. -/
theorem fireWrite_wire {p : ChannelPipeline WireHandler} (h : ChannelPipeline.Attached p)
    (hne : p.kinds ≠ []) (t : TlsConnection) (msg : Msg) :
    (fireWrite t (p.kinds.reverse.map frontOfWire) msg).conn = Context.fireWrite p t.conn msg := by
  have hlast : p.kinds.reverse.getLast?.any ChannelHandler.isOutbound =
      ChannelPipeline.HeadOutbound p.kinds := by
    rw [List.getLast?_reverse, ChannelPipeline.HeadOutbound]
  rw [Context.fireWrite_eq h, fireWrite, landing_wire (by simpa using hne), hlast]
  by_cases hhead : ChannelPipeline.HeadOutbound p.kinds = true
  · rw [if_pos hhead, if_pos hhead]
    generalize List.foldl _ msg _ = msg'
    cases msg' <;> rfl
  · rw [if_neg hhead, if_neg hhead]

end Backlog

end XNetty
