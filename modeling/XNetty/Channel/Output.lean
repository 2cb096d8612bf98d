import XNetty.Lib.Ledger
import XNetty.Channel.Connection

/-!
# The output of a connection over a run

Handlers write, the event loop reports the socket writable, and either side may flush, in
any order and whatever the socket answers. The output is the concatenation of what was
written, and bytes still waiting on an open connection never go unwatched.

## Main definitions

* `Connection.Op` — one operation on the outbound end of a connection.
* `Connection.run_output` — the law of the output.
-/

namespace XNetty

namespace Connection

/-- The operations that touch the write buffer when no codec but a forwarding one is at
the head of the pipeline, and the switch to `Connection: close`. -/
inductive Op where
  | fireWrite (buf : ByteBuf)
  | flush
  | flushWriteBuf
  | onWrite
  | setKeepAlive (ka : Bool)

def step (c : Connection) : Op → Connection
  | .fireWrite buf => c.fireWrite buf
  | .flush => c.flush
  | .flushWriteBuf => c.flushWriteBuf
  | .onWrite => c.onWrite
  | .setKeepAlive ka => c.setKeepAlive ka

/-- The bytes an operation hands to the connection. -/
def Op.written : Op → Bytes
  | .fireWrite buf => buf.readable
  | _ => []

/-- The state of a connection after some operations. -/
def run (c : Connection) (ops : List Op) : Connection := ops.foldl step c

/-- One operation adds to the output what it was given, and nothing else. -/
theorem step_books (c : Connection) (op : Op) :
    Ledger.Books output Op.written step c op := by
  unfold Ledger.Books
  cases op with
  | fireWrite buf => exact (c.fireWrite_spec buf).1
  | flush => simpa [Op.written, step, flush] using c.flushWriteBuf_spec.1
  | flushWriteBuf => simpa [Op.written, step] using c.flushWriteBuf_spec.1
  | onWrite => simpa [Op.written, step] using c.onWrite_spec.1
  | setKeepAlive ka => simp [Op.written, step, setKeepAlive, output]

theorem step_watched {c : Connection} (hw : c.Watched) (op : Op) : (c.step op).Watched := by
  cases op with
  | fireWrite buf => exact (c.fireWrite_spec buf).2
  | flush => exact c.flushWriteBuf_spec.2
  | flushWriteBuf => exact c.flushWriteBuf_spec.2
  | onWrite => exact c.onWrite_spec.2 hw
  | setKeepAlive ka => exact hw

/-- **Output byte stream integrity.** Over every run from a connection with nothing sent or
waiting, the bytes taken by the socket followed by those waiting are the bytes written, in
order; and while the connection is open, waiting bytes have the channel's write interest. -/
theorem run_output {c : Connection} (hsent : c.socket.accepted = [])
    (hwait : c.writeBuf.readable = []) (ops : List Op) :
    (c.run ops).socket.accepted ++ (c.run ops).writeBuf.readable = ops.flatMap Op.written ∧
    ((c.run ops).closed = false → (c.run ops).writeBuf.readable ≠ [] →
      (c.run ops).writing = true) := by
  have hout : c.output = [] := by simp [output, hsent, hwait]
  have hw : c.Watched := fun _ hne => absurd hwait hne
  have hwatched : (c.run ops).Watched :=
    Ledger.foldl_preserves Watched (fun _ op hd => step_watched hd op) hw ops
  refine ⟨?_, hwatched⟩
  have htotal := Ledger.total_foldl (Ledger.along_of_forall step_books c ops)
  rwa [hout, List.nil_append] at htotal

/-- Two writes to a socket that first takes one byte and then refuses twice. -/
theorem run_output_short_writes :
    let c : Connection :=
      { socket := { answers := fun i => [.accept 1, .again, .again].getD i (.accept 9) } }
    let c' := c.run [.fireWrite (ByteBuf.empty.writeBytes [1, 2, 3]), .onWrite,
      .fireWrite (ByteBuf.empty.writeBytes [4])]
    c'.socket.accepted ++ c'.writeBuf.readable = [1, 2, 3, 4] ∧
    (c'.closed = false → c'.writeBuf.readable ≠ [] → c'.writing = true) :=
  @run_output { socket := { answers := fun i => [.accept 1, .again, .again].getD i (.accept 9) } }
    rfl rfl [.fireWrite (ByteBuf.empty.writeBytes [1, 2, 3]), .onWrite,
      .fireWrite (ByteBuf.empty.writeBytes [4])]

end Connection

end XNetty
