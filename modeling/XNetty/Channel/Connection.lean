import XNetty.Buffer.ByteBuf

/-!
# The outbound end of a connection

Handlers append to the connection's write buffer; `flushWriteBuf` and `onWrite` move bytes
from it to the socket. The bytes the socket has taken, followed by the bytes still in the
buffer, are the connection's output.

## Main definitions

* `Socket.write` — one `write` or `writev` on a non-blocking socket.
* `Connection.flushWriteBuf`, `Connection.onWrite` — the worker loop's two ways to send.
* `Connection.output` — everything sent or about to be.
-/

namespace XNetty

/-! ## Sockets -/

/-- What the kernel answers to one write. -/
inductive Answer where
  /-- It takes at most `n` bytes from the front of what is offered. -/
  | accept (n : ℕ)
  /-- `EAGAIN`. -/
  | again
  /-- Any other `errno`. -/
  | fail
  deriving DecidableEq

/-- A socket with the answers it has yet to give and the bytes it has taken. -/
structure Socket where
  answers : ℕ → Answer
  accepted : Bytes := []

/-- What `write` returns: a count, or `-1` with `errno` equal to `EAGAIN` or not. -/
inductive WriteResult where
  | count (n : ℕ)
  | again
  | fail
  deriving DecidableEq

def Socket.write (s : Socket) (data : Bytes) : WriteResult × Socket :=
  let later : Socket := { s with answers := fun i => s.answers (i + 1) }
  match s.answers 0 with
  | .accept n =>
    (.count (min n data.length), { later with accepted := s.accepted ++ data.take n })
  | .again => (.again, later)
  | .fail => (.fail, later)

/-- All one write can do: take some bytes from the front, or none. -/
theorem Socket.write_cases (s : Socket) (data : Bytes) :
    (∃ n, (s.write data).1 = .count n ∧ n ≤ data.length ∧
      (s.write data).2.accepted = s.accepted ++ data.take n) ∨
    ((s.write data).1 = .again ∧ (s.write data).2.accepted = s.accepted) ∨
    ((s.write data).1 = .fail ∧ (s.write data).2.accepted = s.accepted) := by
  unfold Socket.write
  cases s.answers 0 with
  | accept n => exact .inl ⟨min n data.length, rfl, min_le_right _ _, by simp⟩
  | again => exact .inr (.inl ⟨rfl, rfl⟩)
  | fail => exact .inr (.inr ⟨rfl, rfl⟩)

/-! ## Connections -/

/-- The part of a `Connection` and its `Channel` that sending reads and writes. -/
structure Connection where
  socket : Socket
  writeBuf : ByteBuf := .empty
  writeBufWaterMark : ℕ := 65536
  closed : Bool := false
  keepAlive : Bool := true
  /-- `kWriteEvent` is among the channel's events. -/
  writing : Bool := false
  /-- How often the pipeline was told that the channel is inactive. -/
  inactive : ℕ := 0

namespace Connection

/-- The bytes taken by the socket and, behind them, the bytes waiting. -/
def output (c : Connection) : Bytes := c.socket.accepted ++ c.writeBuf.readable

def isWriteBufOverflow (c : Connection) : Bool :=
  0 < c.writeBufWaterMark ∧ c.writeBufWaterMark < c.writeBuf.readableBytes

def enableWriting (c : Connection) : Connection := { c with writing := true }
def disableWriting (c : Connection) : Connection := { c with writing := false }
def setKeepAlive (c : Connection) (ka : Bool) : Connection := { c with keepAlive := ka }

/-- `WorkerEventLoop::flushWriteBuf`: one `writev`. -/
def flushWriteBuf (c : Connection) : Connection :=
  if c.writeBuf.readableBytes = 0 then c
  else
    let (n, socket) := c.socket.write c.writeBuf.readable
    let c := { c with socket := socket }
    match n with
    | .again => c.enableWriting
    | .fail | .count 0 => { c with closed := true }
    | .count written =>
      let c := { c with writeBuf := c.writeBuf.discard written }
      let c := if c.writeBuf.readableBytes > 0 then c.enableWriting
        else { c with writeBuf := c.writeBuf.clear }
      if c.keepAlive then c else { c with closed := true }

/-- `Context::flush`. -/
def flush (c : Connection) : Connection := c.flushWriteBuf

/-- `Context::close`. -/
def close (c : Connection) : Connection :=
  if c.closed then c else { c with closed := true, inactive := c.inactive + 1 }

/-- `ChannelHandlerContext::fireWrite` of a `ByteBuf*` at index 0. -/
def fireWrite (c : Connection) (buf : ByteBuf) : Connection :=
  let c := { c with writeBuf := c.writeBuf.writeBytes buf.readable }
  if c.isWriteBufOverflow then c.close else c.flush

/-- The loop of `onWrite`. Every turn that goes on takes a byte off the buffer, so as many
turns as there are bytes suffice. -/
def writeLoop : ℕ → Connection → Connection
  | 0, c => { c with writeBuf := c.writeBuf.clear }.disableWriting
  | fuel + 1, c =>
    if c.writeBuf.readableBytes = 0 then { c with writeBuf := c.writeBuf.clear }.disableWriting
    else
      let (n, socket) := c.socket.write c.writeBuf.readable
      let c := { c with socket := socket }
      match n with
      | .again => c
      | .fail | .count 0 => { c with closed := true }
      | .count written => writeLoop fuel { c with writeBuf := c.writeBuf.discard written }

/-- `WorkerEventLoop::onWrite`. -/
def onWrite (c : Connection) : Connection :=
  if c.closed then c else writeLoop c.writeBuf.readableBytes c

/-! ## What sending keeps -/

/-- Bytes left waiting on an open connection have the channel's write interest. -/
def Watched (c : Connection) : Prop :=
  c.closed = false → c.writeBuf.readable ≠ [] → c.writing = true

/-- Taking bytes off the front of the buffer and handing them to the socket. -/
theorem output_sent {c d : Connection} {n : ℕ}
    (hs : d.socket.accepted = c.socket.accepted ++ c.writeBuf.readable.take n)
    (hb : d.writeBuf.readable = c.writeBuf.readable.drop n) : d.output = c.output := by
  rw [output, hs, hb, List.append_assoc, List.take_append_drop, output]

/-- A write the kernel did not take leaves the output alone. -/
theorem output_kept {c d : Connection} (hs : d.socket.accepted = c.socket.accepted)
    (hb : d.writeBuf = c.writeBuf) : d.output = c.output := by
  rw [output, hs, hb, output]

/-- What a socket takes out of a buffer that is not empty, when it takes up to `n + 1` bytes. -/
theorem exists_taken {b : ByteBuf} (hleft : 0 < b.readableBytes) (n : ℕ) :
    ∃ taken, min (n + 1) b.readable.length = taken + 1 ∧
      (b.discard (taken + 1)).readableBytes = b.readableBytes - (n + 1) := by
  rw [ByteBuf.length_readable]
  refine ⟨min n (b.readableBytes - 1), by omega, ?_⟩
  rw [ByteBuf.readableBytes_discard]
  omega

/-- **One `writev`**: no byte is lost or sent twice, and bytes it leaves behind are watched. -/
theorem flushWriteBuf_spec (c : Connection) :
    c.flushWriteBuf.output = c.output ∧ c.flushWriteBuf.Watched := by
  unfold flushWriteBuf
  by_cases hzero : c.writeBuf.readableBytes = 0
  · rw [if_pos hzero]
    exact ⟨rfl, fun _ hne => absurd ((ByteBuf.readable_eq_nil_iff _).mpr hzero) hne⟩
  rw [if_neg hzero]
  obtain ⟨n, hn, -, hacc⟩ | ⟨hn, hacc⟩ | ⟨hn, hacc⟩ := c.socket.write_cases c.writeBuf.readable
  · simp only [hn]
    cases n with
    | zero => exact ⟨output_kept (by simpa using hacc) rfl, by simp [Watched]⟩
    | succ n =>
      -- the buffer is cleared only when nothing is left in it
      by_cases hleft : 0 < (c.writeBuf.discard (n + 1)).readableBytes
      · simp only [hleft, if_true, enableWriting]
        split
        · exact ⟨output_sent hacc (by simp), by simp [Watched]⟩
        · exact ⟨output_sent hacc (by simp), by simp [Watched]⟩
      · have hnil : c.writeBuf.readable.drop (n + 1) = [] := by
          rw [← ByteBuf.readable_discard, ByteBuf.readable_eq_nil_iff]
          omega
        simp only [hleft, if_false]
        split
        · exact ⟨output_sent hacc (by simp [hnil]), by simp [Watched]⟩
        · exact ⟨output_sent hacc (by simp [hnil]), by simp [Watched]⟩
  · simp only [hn]
    exact ⟨output_kept hacc rfl, by simp [Watched, enableWriting]⟩
  · simp only [hn]
    exact ⟨output_kept hacc rfl, by simp [Watched]⟩

theorem writeLoop_spec {fuel : ℕ} {c : Connection} (hfuel : c.writeBuf.readableBytes ≤ fuel) :
    (writeLoop fuel c).output = c.output ∧ (c.Watched → (writeLoop fuel c).Watched) := by
  induction fuel generalizing c with
  | zero =>
    have hnil : c.writeBuf.readable = [] := (ByteBuf.readable_eq_nil_iff _).mpr (by omega)
    simp [writeLoop, disableWriting, output, Watched, hnil]
  | succ fuel ih =>
    unfold writeLoop
    by_cases hzero : c.writeBuf.readableBytes = 0
    · have hnil : c.writeBuf.readable = [] := (ByteBuf.readable_eq_nil_iff _).mpr hzero
      simp [hzero, disableWriting, output, Watched, hnil]
    rw [if_neg hzero]
    obtain ⟨n, hn, hle, hacc⟩ | ⟨hn, hacc⟩ | ⟨hn, hacc⟩ :=
      c.socket.write_cases c.writeBuf.readable
    · simp only [hn]
      cases n with
      | zero => exact ⟨output_kept (by simpa using hacc) rfl, by simp [Watched]⟩
      | succ n =>
        have hless : (c.writeBuf.discard (n + 1)).readableBytes ≤ fuel := by
          rw [ByteBuf.readableBytes_discard]
          omega
        obtain ⟨hout, hwatched⟩ := @ih
          { c with
            socket := (c.socket.write c.writeBuf.readable).2
            writeBuf := c.writeBuf.discard (n + 1) } hless
        refine ⟨hout.trans (output_sent hacc (by simp)), fun hw => hwatched fun hopen hne =>
          hw hopen fun hnil => hne ?_⟩
        simp [hnil]
    · simp only [hn]
      exact ⟨output_kept hacc rfl, id⟩
    · simp only [hn]
      exact ⟨output_kept hacc rfl, by simp [Watched]⟩

/-- **The write event**: no byte is lost or sent twice, and what is left stays watched. -/
theorem onWrite_spec (c : Connection) :
    c.onWrite.output = c.output ∧ (c.Watched → c.onWrite.Watched) := by
  unfold onWrite
  split
  · exact ⟨rfl, id⟩
  · exact writeLoop_spec le_rfl

/-- **A buffer reaching the head of the pipeline** goes behind the output. -/
theorem fireWrite_spec (c : Connection) (buf : ByteBuf) :
    (c.fireWrite buf).output = c.output ++ buf.readable ∧ (c.fireWrite buf).Watched := by
  have hout : ({ c with writeBuf := c.writeBuf.writeBytes buf.readable } : Connection).output =
      c.output ++ buf.readable := by simp [output]
  unfold fireWrite
  dsimp only
  rw [← hout]
  split
  · unfold close
    split
    next hclosed => exact ⟨rfl, fun hopen => absurd hopen (by simpa using hclosed)⟩
    · exact ⟨rfl, by simp [Watched]⟩
  · exact flushWriteBuf_spec _

/-! ## Closed for good -/

variable {c : Connection}

theorem closed_flushWriteBuf (h : c.closed = true) : c.flushWriteBuf.closed = true := by
  unfold flushWriteBuf enableWriting
  split
  · exact h
  · dsimp only
    split
    · exact h
    · rfl
    · rfl
    · split <;> split <;> first | rfl | exact h

@[simp] theorem closed_close (c : Connection) : c.close.closed = true := by
  unfold close
  split
  next h => exact h
  · rfl

theorem closed_fireWrite (h : c.closed = true) (buf : ByteBuf) :
    (c.fireWrite buf).closed = true := by
  unfold fireWrite
  dsimp only
  split
  · exact closed_close _
  · exact closed_flushWriteBuf h

theorem closed_onWrite (h : c.closed = true) : c.onWrite.closed = true := by
  rw [onWrite, if_pos h]
  exact h

end Connection

end XNetty
