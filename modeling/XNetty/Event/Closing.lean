import XNetty.Event.Worker

/-!
# What closes a connection

The fate of a connection is decided by a few of its fields. Each function of the worker is
described by what it does to them, and the calls that can set `closed_` by the condition under
which they do.

## Main definitions

* `Status` — stage, descriptor, handlers, membership and the closed flag.
* `flushCloses`, `writeCloses`, `drainFails` — when sending closes the connection.
-/

namespace XNetty

namespace Connection

/-- The `writev` of `flushWriteBuf` fails, or sends something on a connection that is not to be
kept alive. -/
def flushCloses (c : Connection) : Bool :=
  c.writeBuf.readableBytes ≠ 0 &&
    match (c.socket.write c.writeBuf.readable).1 with
    | .again => false
    | .fail | .count 0 => true
    | .count _ => !c.keepAlive

theorem flushWriteBuf_closed (c : Connection) :
    c.flushWriteBuf.closed = (c.closed || c.flushCloses) := by
  unfold flushWriteBuf flushCloses
  by_cases hzero : c.writeBuf.readableBytes = 0
  · simp [hzero]
  · simp only [hzero, if_false]
    rcases hn : (c.socket.write c.writeBuf.readable).1 with _ | _ | _
    · rename_i n
      cases n with
      | zero => simp [hzero]
      | succ n =>
        cases hka : c.keepAlive <;> simp [hzero, enableWriting] <;> split <;> simp
    · simp [enableWriting]
    · simp [hzero]

/-- A write in the loop of `onWrite` fails. -/
def drainFails : ℕ → Connection → Bool
  | 0, _ => false
  | fuel + 1, c =>
    if c.writeBuf.readableBytes = 0 then false
    else
      let (n, socket) := c.socket.write c.writeBuf.readable
      match n with
      | .again => false
      | .fail | .count 0 => true
      | .count written =>
        drainFails fuel { c with socket, writeBuf := c.writeBuf.discard written }

theorem writeLoop_closed (fuel : ℕ) (c : Connection) :
    (writeLoop fuel c).closed = (c.closed || drainFails fuel c) := by
  induction fuel generalizing c with
  | zero => simp [writeLoop, drainFails, disableWriting]
  | succ fuel ih =>
    unfold writeLoop drainFails
    by_cases hzero : c.writeBuf.readableBytes = 0
    · simp [hzero, disableWriting]
    · simp only [hzero, if_false]
      rcases hn : (c.socket.write c.writeBuf.readable).1 with _ | _ | _
      · rename_i n
        cases n with
        | zero => simp
        | succ n => simpa using ih _
      · simp
      · simp

end Connection

namespace Event

open Reentrant

/-- The fields that decide what becomes of a connection. -/
structure Status where
  stage : Stage
  fd : Option ℕ
  handlers : List HandlerEntry
  listed : Bool
  loopAlive : Bool
  closed : Bool
  cleared : Bool

namespace Conn

def status (c : Conn) : Status :=
  ⟨c.stage, c.fd, c.handlers, c.listed, c.loopAlive, c.closed, c.cleared⟩

@[simp] theorem status_note (c : Conn) (entries : List LogEntry) :
    (c.note entries).status = c.status := rfl

@[simp] theorem status_sys (c : Conn) (calls : List Syscall) :
    (c.sys calls).status = c.status := rfl

/-- `Context::flush` sets `closed_`. -/
def flushCloses (c : Conn) : Bool :=
  c.stage = .alive && c.loopAlive &&
    if c.fd = none then c.writeBuf.readableBytes ≠ 0 else c.toConnection.flushCloses

theorem flush_status (c : Conn) :
    c.flush.status = { c.status with closed := c.closed || c.flushCloses } := by
  unfold flush flushCloses flushWriteBuf
  by_cases hlive : c.stage = .alive ∧ c.loopAlive
  · cases hfd : c.fd with
    | none =>
      by_cases hzero : c.writeBuf.readableBytes = 0 <;> simp [hlive, hzero, status, hfd, sys, note]
    | some n => simp [hlive, status, hfd, sys, note, c.flushWriteBuf_closed]
  · rw [if_neg hlive]
    have hnot : (decide (c.stage = .alive) && c.loopAlive) = false := by simpa using hlive
    simp [hnot, status]

/-- The connection with the bytes behind its write buffer. -/
def append (c : Conn) (buf : ByteBuf) : Conn :=
  { c with writeBuf := c.writeBuf.writeBytes buf.readable }

@[simp] theorem append_status (c : Conn) (buf : ByteBuf) : (c.append buf).status = c.status := rfl

@[simp] theorem append_stage (c : Conn) (buf : ByteBuf) : (c.append buf).stage = c.stage := rfl

@[simp] theorem append_closed (c : Conn) (buf : ByteBuf) : (c.append buf).closed = c.closed := rfl

/-- A write at the head of the pipeline sets `closed_`. -/
def writeCloses (c : Conn) (buf : ByteBuf) : Bool :=
  c.stage = .alive && if (c.append buf).isWriteBufOverflow then true else (c.append buf).flushCloses

theorem close_status (c : Conn) :
    c.close.1.status = { c.status with closed := c.closed || decide (c.stage = .alive) } := by
  unfold close
  by_cases halive : c.stage = .alive <;> cases hclosed : c.closed <;> simp [halive, status, hclosed]

theorem close_frames (c : Conn) :
    ownFrames c.close.2 =
      if c.stage = .alive ∧ c.closed = false then [.deliver .inactive 0] else [] := by
  unfold close
  by_cases halive : c.stage = .alive <;> cases hclosed : c.closed <;> simp [halive]

theorem fireWrite_eq (c : Conn) (buf : ByteBuf) :
    c.fireWrite buf =
      if c.stage = .alive then
        if (c.append buf).isWriteBufOverflow then (c.append buf).close
        else ((c.append buf).flush, [])
      else (c, []) := rfl

theorem fireWrite_status (c : Conn) (buf : ByteBuf) :
    (c.fireWrite buf).1.status = { c.status with closed := c.closed || c.writeCloses buf } := by
  rw [fireWrite_eq]
  unfold writeCloses
  by_cases halive : c.stage = .alive
  · rw [if_pos halive]
    split
    · rw [close_status]
      simp [*]
    · rw [flush_status]
      simp [*]
  · simp [halive, status]

theorem fireWrite_frames (c : Conn) (buf : ByteBuf) :
    ownFrames (c.fireWrite buf).2 =
      if c.stage = .alive ∧ c.closed = false ∧ (c.append buf).isWriteBufOverflow
      then [.deliver .inactive 0] else [] := by
  rw [fireWrite_eq]
  by_cases halive : c.stage = .alive
  · rw [if_pos halive]
    by_cases hover : (c.append buf).isWriteBufOverflow
    · rw [if_pos hover, close_frames]
      simp [halive, hover]
    · simp [hover]
  · simp [halive]

/-- `onWrite` sets `closed_`. -/
def writeFails (c : Conn) : Bool :=
  c.serves && Connection.drainFails c.writeBuf.readableBytes c.toConnection

theorem onWrite_status (c : Conn) :
    c.onWrite.status = { c.status with closed := c.closed || c.writeFails } := by
  unfold onWrite writeFails
  by_cases hserves : c.serves
  · have hopen : c.closed = false := by
      simp only [serves, Bool.and_eq_true, Bool.not_eq_true'] at hserves
      exact hserves.2
    have hloop := Connection.writeLoop_closed c.writeBuf.readableBytes c.toConnection
    simp [hserves, status, sys, note, Connection.onWrite, hopen, hloop]
  · simp [hserves, status]

@[simp] theorem visit_status (c : Conn) (ev : LifeEvent) (i : ℕ) (h : HandlerEntry) :
    (c.visit ev i h).status = c.status := by
  unfold visit
  split <;> split <;> rfl

theorem deliver_status (c : Conn) (ev : LifeEvent) (i : ℕ) :
    (c.deliver ev i).1.status = { c.status with cleared := (c.deliver ev i).1.cleared } := by
  unfold deliver
  split
  · split <;> rfl
  · split
    · rename_i h _ _
      have hvisit := c.visit_status ev i h
      have hcleared : (c.visit ev i h).cleared = c.cleared := congrArg Status.cleared hvisit
      simp only [hvisit, hcleared]
      rfl
    · rfl

@[simp] theorem fireNext_status (c : Conn) (ev : LifeEvent) (i : ℕ) :
    (c.fireNext ev i).1.status = c.status := by
  unfold fireNext
  split
  · rfl
  · split
    · rfl
    · exact visit_status ..

@[simp] theorem fireNext_frames (c : Conn) (ev : LifeEvent) (i : ℕ) :
    ownFrames (c.fireNext ev i).2 = [] := by
  unfold fireNext
  split
  · rfl
  · split <;> rfl

theorem onRead_status (c : Conn) (n : ReadResult) :
    (c.onRead n).1.status =
      { c.status with closed := c.closed || c.serves && (n = .eof || n = .fail) } := by
  unfold onRead
  by_cases hserves : c.serves
  · cases n with
    | data =>
      simp only [hserves, if_true]
      exact (fireNext_status _ .read 0).trans (by simp [status, sys, note])
    | _ => simp [hserves, status, sys, note]
  · simp [hserves, status]

theorem onError_status (c : Conn) :
    c.onError.1.status = { c.status with closed := c.closed || c.serves } := by
  unfold onError
  by_cases hserves : c.serves <;> simp [hserves, status]

theorem timeout_status (c : Conn) : c.timeout.1.status = { c.status with closed := true } := rfl

@[simp] theorem removeConn_status (c : Conn) : c.removeConn.1.status = c.status := by
  unfold removeConn
  split <;> rfl

theorem serves_iff (c : Conn) :
    c.serves = true ↔ c.loopAlive = true ∧ c.stage = .alive ∧ c.closed = false := by
  simp [serves, and_assoc]

@[simp] theorem peerAddress_status (c : Conn) : c.peerAddress.status = c.status := by
  unfold peerAddress
  split <;> rfl

@[simp] theorem setKeepAlive_status (c : Conn) (ka : Bool) :
    (c.setKeepAlive ka).status = c.status := by
  unfold setKeepAlive
  split <;> rfl

@[simp] theorem subscribe_status (c : Conn) (topic : Bytes) (address : WebSocket.SubscriberPtr) :
    (c.subscribe topic address).status = c.status := by
  unfold subscribe
  split <;> rfl

@[simp] theorem unsubscribe_status (c : Conn) (topic : Bytes) :
    (c.unsubscribe topic).status = c.status := rfl

@[simp] theorem freeSubscriber_status (c : Conn) : c.freeSubscriber.status = c.status := rfl

/-! ### System calls -/

/-- What is new in the log are system calls other than `close`, made with the descriptor the
connection had. -/
def Calls (c c' : Conn) : Prop := ∃ calls, .close ∉ calls ∧ c'.log = (c.sys calls).log

theorem Calls.of_log {c c' : Conn} (h : c'.log = c.log) : Calls c c' :=
  ⟨[], by simp, by simpa [sys, note] using h⟩

theorem close_notMem_flushCalls (c : Connection) : .close ∉ flushCalls c := by
  unfold flushCalls
  split
  · simp
  · split
    · simp
    · simp
    · simp
    · split <;> simp

theorem close_notMem_writeCalls (fuel : ℕ) (c : Connection) : .close ∉ writeCalls fuel c := by
  induction fuel generalizing c with
  | zero => simp [writeCalls]
  | succ fuel ih =>
    unfold writeCalls
    split
    · simp
    · dsimp only
      split
      · simp
      · simp
      · simp
      · simpa using ih _

theorem flush_calls (c : Conn) : Calls c c.flush := by
  unfold flush flushWriteBuf
  split
  · split
    · exact ⟨_, close_notMem_flushCalls _, rfl⟩
    · split
      · exact .of_log rfl
      · exact ⟨[.writev], by simp, rfl⟩
  · exact .of_log rfl

theorem close_calls (c : Conn) : Calls c c.close.1 := by
  unfold close
  split <;> exact .of_log rfl

theorem fireWrite_calls (c : Conn) (buf : ByteBuf) : Calls c (c.fireWrite buf).1 := by
  rw [fireWrite_eq]
  split
  · split
    · exact close_calls (c.append buf)
    · exact flush_calls (c.append buf)
  · exact .of_log rfl

theorem onWrite_calls (c : Conn) : Calls c c.onWrite := by
  unfold onWrite
  split
  · exact ⟨_, close_notMem_writeCalls _ _, rfl⟩
  · exact .of_log rfl

theorem onError_calls (c : Conn) : Calls c c.onError.1 := by
  unfold onError
  split <;> exact .of_log rfl

theorem removeConn_calls (c : Conn) : Calls c c.removeConn.1 := by
  unfold removeConn
  split <;> exact .of_log rfl

theorem peerAddress_calls (c : Conn) : Calls c c.peerAddress := by
  unfold peerAddress
  split
  · exact ⟨[.getpeername], by simp, rfl⟩
  · exact .of_log rfl

theorem setKeepAlive_calls (c : Conn) (ka : Bool) : Calls c (c.setKeepAlive ka) := by
  unfold setKeepAlive
  split <;> exact .of_log rfl

theorem subscribe_calls (c : Conn) (topic : Bytes) (address : WebSocket.SubscriberPtr) :
    Calls c (c.subscribe topic address) := by
  unfold subscribe
  split <;> exact .of_log rfl

theorem visit_log (c : Conn) (ev : LifeEvent) (i : ℕ) (h : HandlerEntry) :
    (c.visit ev i h).log = c.log ++ if h.inbound || ev = .removed then [.life i ev] else [] := by
  unfold visit
  split <;> split <;> simp [note, freeSubscriber]

/-- What is new in the log are such system calls, and events that handlers saw. -/
def Logs (c c' : Conn) : Prop :=
  ∃ entries, c'.log = c.log ++ entries ∧
    ∀ e ∈ entries, (∃ i ev, e = .life i ev) ∨ ∃ call, call ≠ .close ∧ e = .sys call c.fd

theorem Calls.logs {c c' : Conn} (h : Calls c c') : Logs c c' := by
  obtain ⟨calls, hclose, hlog⟩ := h
  refine ⟨_, hlog, fun e he => .inr ?_⟩
  obtain ⟨call, hcall, rfl⟩ := List.mem_map.mp he
  exact ⟨call, fun heq => hclose (heq ▸ hcall), rfl⟩

theorem Logs.subset {c c' : Conn} (h : Logs c c') : c.log ⊆ c'.log := by
  obtain ⟨entries, hlog, -⟩ := h
  rw [hlog]
  exact List.subset_append_left _ _

theorem Logs.trans {c c' c'' : Conn} (h : Logs c c') (hfd : c'.fd = c.fd) (h' : Logs c' c'') :
    Logs c c'' := by
  obtain ⟨entries, hlog, hentries⟩ := h
  obtain ⟨entries', hlog', hentries'⟩ := h'
  refine ⟨entries ++ entries', by rw [hlog', hlog, List.append_assoc], fun e he => ?_⟩
  rcases List.mem_append.mp he with he | he
  · exact hentries e he
  · rw [← hfd]
    exact hentries' e he

theorem visit_logs (c : Conn) (ev : LifeEvent) (i : ℕ) (h : HandlerEntry) :
    Logs c (c.visit ev i h) := by
  refine ⟨_, c.visit_log ev i h, fun e he => .inl ?_⟩
  split at he
  · exact ⟨i, ev, List.mem_singleton.mp he⟩
  · cases he

theorem deliver_logs (c : Conn) (ev : LifeEvent) (i : ℕ) : Logs c (c.deliver ev i).1 := by
  unfold deliver
  split
  · split <;> exact (Calls.of_log rfl).logs
  · split
    · exact c.visit_logs ev i _
    · exact (Calls.of_log rfl).logs

theorem fireNext_logs (c : Conn) (ev : LifeEvent) (i : ℕ) : Logs c (c.fireNext ev i).1 := by
  unfold fireNext
  split
  · exact (Calls.of_log rfl).logs
  · split
    · exact (Calls.of_log rfl).logs
    · exact c.visit_logs ev _ _

theorem onRead_logs (c : Conn) (n : ReadResult) : Logs c (c.onRead n).1 := by
  have hread : Logs c (c.sys [.read]) := Calls.logs ⟨[.read], by simp, rfl⟩
  unfold onRead
  split
  · cases n with
    | data => exact hread.trans rfl (fireNext_logs _ .read 0)
    | _ => exact hread
  · exact (Calls.of_log rfl).logs

end Conn

/-! ### Calls of outside code -/

/-- The call sets `closed_`, or finds it set. -/
def Api.closes (c : Conn) : Api → Bool
  | .close => c.stage = .alive
  | .flush => c.flushCloses
  | .fireWrite buf => c.writeCloses buf
  | _ => false

/-- Loops that call handlers. -/
def Frame.quiet : Frame → Bool
  | .deliver _ _ => true
  | _ => false

variable {ι : Type*} [DecidableEq ι]

theorem call_status (a : Api) (c : Conn) :
    ((worker ι).call a c).1.status = { c.status with closed := c.closed || a.closes c } := by
  cases a with
  | close => exact c.close_status
  | flush => exact c.flush_status
  | fireWrite buf => exact c.fireWrite_status buf
  | setKeepAlive ka => exact (c.setKeepAlive_status ka).trans (by simp [Api.closes, Conn.status])
  | peerAddress => exact c.peerAddress_status.trans (by simp [Api.closes, Conn.status])
  | subscribe topic address cell =>
    exact (c.subscribe_status topic address).trans (by simp [Api.closes, Conn.status])
  | fire ev i =>
    have hstatus : c.status = { c.status with closed := c.closed || false } := by simp [Conn.status]
    simp only [worker]
    split
    · exact hstatus
    · exact (c.fireNext_status ev _).trans hstatus
  | _ => simp [worker, Api.closes, Conn.status, Conn.unsubscribe, Conn.freeSubscriber]

theorem call_logs (a : Api) (c : Conn) : Conn.Logs c ((worker ι).call a c).1 := by
  cases a with
  | close => exact c.close_calls.logs
  | flush => exact c.flush_calls.logs
  | fireWrite buf => exact (c.fireWrite_calls buf).logs
  | setKeepAlive ka => exact (c.setKeepAlive_calls ka).logs
  | peerAddress => exact c.peerAddress_calls.logs
  | subscribe topic address cell => exact (c.subscribe_calls topic address).logs
  | fire ev i =>
    simp only [worker]
    split
    · exact (Conn.Calls.of_log rfl).logs
    · exact c.fireNext_logs ev _
  | _ => exact (Conn.Calls.of_log rfl).logs

theorem call_quiet (a : Api) (c : Conn) :
    ∀ f ∈ ownFrames ((worker ι).call a c).2, f.quiet := by
  cases a with
  | close =>
    change ∀ f ∈ ownFrames c.close.2, f.quiet
    rw [c.close_frames]
    split <;> simp [Frame.quiet]
  | fireWrite buf =>
    change ∀ f ∈ ownFrames (c.fireWrite buf).2, f.quiet
    rw [c.fireWrite_frames]
    split <;> simp [Frame.quiet]
  | fire ev i =>
    simp only [worker]
    split <;> simp
  | _ => simp [worker]

end Event

end XNetty
