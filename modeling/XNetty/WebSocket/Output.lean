import XNetty.Lib.Ledger
import XNetty.Channel.Connection
import XNetty.Channel.Message

/-!
# The outbound half of the WebSocket codec

`write` clears the connection's write buffer before it puts the encoded frame there. A run
of writes and write events therefore sends every frame exactly when no frame is written
while bytes are waiting.

## Main definitions

* `WebSocketCodec.write` — the handler.
* `WebSocketCodec.run_output_iff` — when a run loses nothing.
-/

namespace XNetty

namespace WebSocketCodec

/-- `WebSocketCodec::write`: the connection afterwards, and what goes on to the previous
outbound handler. -/
def write (c : Connection) : Msg → Connection × List Msg
  | .frame frame =>
    let buf := encodeFrame frame
    let c := { c with writeBuf := c.writeBuf.clear.writeBytes buf.readable }
    (c.flush, [])
  | msg => (c, [msg])

/-- What happens on the outbound end of an upgraded connection. -/
inductive OutOp where
  | write (frame : WebSocketFrame)
  | onWrite

def outStep (c : Connection) : OutOp → Connection
  | .write frame => (write c (.frame frame)).1
  | .onWrite => c.onWrite

/-- The bytes of the frame that an operation writes. -/
def OutOp.encoded : OutOp → Bytes
  | .write frame => (encodeFrame frame).readable
  | .onWrite => []

/-- A frame is written only while nothing is waiting. -/
def WritesIdle (c : Connection) : OutOp → Prop
  | .write _ => c.writeBuf.readable = []
  | .onWrite => True

/-- A written frame replaces the waiting bytes. -/
theorem output_write (c : Connection) (frame : WebSocketFrame) :
    (write c (.frame frame)).1.output = c.socket.accepted ++ (encodeFrame frame).readable := by
  refine (Connection.flushWriteBuf_spec _).1.trans ?_
  simp [Connection.output]

/-- A step keeps all bytes exactly when it does not replace any. -/
theorem outStep_books_iff (c : Connection) (op : OutOp) :
    Ledger.Books Connection.output OutOp.encoded outStep c op ↔ WritesIdle c op := by
  unfold Ledger.Books
  cases op with
  | write frame =>
    have hout : (outStep c (.write frame)).output = _ := output_write c frame
    rw [hout]
    simp only [OutOp.encoded, WritesIdle, Connection.output]
    constructor
    · intro h
      have hlen := congrArg List.length h
      simp only [List.length_append] at hlen
      exact List.eq_nil_of_length_eq_zero (by omega)
    · intro h
      rw [h, List.append_nil]
  | onWrite => simpa [outStep, OutOp.encoded, WritesIdle] using c.onWrite_spec.1

/-- **No frame byte is lost at any moment of a run exactly when every frame of the run is
written while no byte is waiting**, whatever the socket answers. -/
theorem run_output_iff (c : Connection) (ops : List OutOp) :
    (∀ done, done <+: ops →
      (done.foldl outStep c).socket.accepted ++ (done.foldl outStep c).writeBuf.readable =
        c.socket.accepted ++ c.writeBuf.readable ++ done.flatMap OutOp.encoded) ↔
      Ledger.Along outStep WritesIdle c ops := by
  exact (Ledger.balanced_iff_books c ops).trans (Ledger.along_congr outStep_books_iff c ops)

/-- The socket takes one byte of the first frame; the rest of it is gone when the second
frame is written. -/
theorem run_output_second_frame :
    let c : Connection := { socket := { answers := fun _ => .accept 1 } }
    let ops : List OutOp := [.write { payload := [1] }, .write { payload := [2] }]
    (ops.foldl outStep c).closed = false ∧
    (ops.foldl outStep c).socket.accepted ++ (ops.foldl outStep c).writeBuf.readable ≠
      ops.flatMap OutOp.encoded := by
  decide

end WebSocketCodec

end XNetty
