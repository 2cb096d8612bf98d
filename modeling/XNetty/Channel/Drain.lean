import XNetty.Http.Request
import XNetty.Http.Response
import XNetty.Channel.Connection

/-!
# Answering a request that closes the connection

After a request with `Connection: close` the connection is to be closed when the response has
been sent. `writeAndFlush` flushes twice, and both flushes mark the connection closed as soon as
the socket takes a byte; the write event, which sends what they leave, marks nothing.

## Main definitions

* `Connection.writeAndFlush` — a response on its way through the pipeline.
* `Connection.moment` — the connection after each of the calls that send it.
* `Connection.ClosedOnceSent` — closed if and only if all of it is sent.
* `Connection.Stalls` — a socket that refuses a number of times before it has room.
-/

namespace XNetty

namespace Connection

/-- `ChannelPipeline::fireWrite` of a response: `HttpServerCodec::write` at the head of the
pipeline passes its text on. -/
def fireResponse (c : Connection) (resp : HttpResponse) : Connection := c.fireWrite resp.toByteBuf

/-- `Context::writeAndFlush`. -/
def writeAndFlush (c : Connection) (resp : HttpResponse) : Connection :=
  let resp := resp.setKeepAlive c.keepAlive
  let ka := c.keepAlive
  let c := c.fireResponse resp
  let c := if !ka then c.setKeepAlive false else c
  c.flushWriteBuf

/-- The connection after the `fireWrite` of `writeAndFlush`, after its `flushWriteBuf`, and after
each write event that follows. -/
def moment (c : Connection) (resp : HttpResponse) : ℕ → Connection
  | 0 => c.fireResponse (resp.setKeepAlive c.keepAlive)
  | k + 1 => onWrite^[k] (c.writeAndFlush resp)

/-- The connection is marked closed if and only if the socket has accepted `sent`, and if and
only if nothing is left to write. -/
def ClosedOnceSent (sent : Bytes) (c : Connection) : Prop :=
  (c.closed = true ↔ c.socket.accepted = sent) ∧ (c.closed = true ↔ c.writeBuf.readable = [])

/-! ## Sockets without errors -/

/-- Every write takes at least a byte or is refused with `EAGAIN`. -/
def NeverFails (answers : ℕ → Answer) : Prop := ∀ i, answers i ≠ .fail ∧ answers i ≠ .accept 0

/-- The answers after the first. -/
def later (answers : ℕ → Answer) (i : ℕ) : Answer := answers (i + 1)

theorem NeverFails.later {answers : ℕ → Answer} (h : NeverFails answers) :
    NeverFails (later answers) := fun i => h (i + 1)

theorem NeverFails.head {answers : ℕ → Answer} (h : NeverFails answers) :
    answers 0 = .again ∨ ∃ n, answers 0 = .accept (n + 1) := by
  obtain ⟨hfail, hzero⟩ := h 0
  match hanswer : answers 0 with
  | .again => exact .inl rfl
  | .fail => exact absurd hanswer hfail
  | .accept 0 => exact absurd hanswer hzero
  | .accept (n + 1) => exact .inr ⟨n, rfl⟩

/-- The bytes that an answer has room for. -/
def room : Answer → ℕ
  | .accept n => n
  | _ => 0

/-- The socket answers `EAGAIN` `k` times before it has had room for `need` bytes. -/
def Stalls (answers : ℕ → Answer) (k need : ℕ) : Prop :=
  ∃ m, k ≤ ((List.range m).map answers).count .again ∧
    (((List.range m).map answers).map room).sum < need

theorem front_succ (answers : ℕ → Answer) (m : ℕ) :
    (List.range (m + 1)).map answers = answers 0 :: (List.range m).map (later answers) := by
  rw [List.range_succ_eq_map, List.map_cons, List.map_map]
  rfl

theorem stalls_zero {answers : ℕ → Answer} {need : ℕ} (h : 0 < need) : Stalls answers 0 need :=
  ⟨0, Nat.zero_le _, h⟩

theorem stalls_again {answers : ℕ → Answer} {k need : ℕ} (h : answers 0 = .again) :
    Stalls answers (k + 1) need ↔ Stalls (later answers) k need := by
  constructor
  · rintro ⟨m, hcount, hsum⟩
    cases m with
    | zero => simp at hcount
    | succ m =>
      rw [front_succ, h] at hcount hsum
      rw [List.count_cons_self] at hcount
      simp only [List.map_cons, room, List.sum_cons, Nat.zero_add] at hsum
      exact ⟨m, by omega, hsum⟩
  · rintro ⟨m, hcount, hsum⟩
    refine ⟨m + 1, ?_, ?_⟩
    · rw [front_succ, h, List.count_cons_self]
      omega
    · rw [front_succ, h]
      simpa [room] using hsum

theorem stalls_accept {answers : ℕ → Answer} {n k need : ℕ} (h : answers 0 = .accept n) :
    Stalls answers (k + 1) need ↔ n < need ∧ Stalls (later answers) (k + 1) (need - n) := by
  constructor
  · rintro ⟨m, hcount, hsum⟩
    cases m with
    | zero => simp at hcount
    | succ m =>
      rw [front_succ, h] at hcount hsum
      rw [List.count_cons_of_ne (by simp)] at hcount
      simp only [List.map_cons, room, List.sum_cons] at hsum
      exact ⟨by omega, m, hcount, by omega⟩
  · rintro ⟨hlt, m, hcount, hsum⟩
    refine ⟨m + 1, ?_, ?_⟩
    · rwa [front_succ, h, List.count_cons_of_ne (by simp)]
    · rw [front_succ, h]
      simp only [List.map_cons, room, List.sum_cons]
      omega

theorem not_stalls_zero {answers : ℕ → Answer} {k : ℕ} : ¬ Stalls answers k 0 := by
  rintro ⟨m, -, hsum⟩
  exact Nat.not_lt_zero _ hsum

/-! ## Write events -/

variable {c : Connection}

/-- A write event sends everything, or ends with the next `EAGAIN`. -/
theorem writeLoop_stalls {fuel : ℕ} (hfuel : c.writeBuf.readableBytes ≤ fuel)
    (hopen : c.closed = false) (hsocket : NeverFails c.socket.answers) :
    (writeLoop fuel c).closed = false ∧
    ((writeLoop fuel c).writeBuf.readableBytes = 0 ∧
        (∀ k, ¬ Stalls c.socket.answers (k + 1) c.writeBuf.readableBytes) ∨
      0 < (writeLoop fuel c).writeBuf.readableBytes ∧
        NeverFails (writeLoop fuel c).socket.answers ∧
        ∀ k, Stalls c.socket.answers (k + 1) c.writeBuf.readableBytes ↔
          Stalls (writeLoop fuel c).socket.answers k
            (writeLoop fuel c).writeBuf.readableBytes) := by
  induction fuel generalizing c with
  | zero =>
    have hzero : c.writeBuf.readableBytes = 0 := by omega
    refine ⟨hopen, .inl ⟨rfl, fun k => ?_⟩⟩
    rw [hzero]
    exact not_stalls_zero
  | succ fuel ih =>
    unfold writeLoop
    by_cases hzero : c.writeBuf.readableBytes = 0
    · rw [if_pos hzero, hzero]
      exact ⟨hopen, .inl ⟨rfl, fun k => not_stalls_zero⟩⟩
    rw [if_neg hzero]
    obtain hanswer | ⟨n, hanswer⟩ := hsocket.head
    · simp only [Socket.write, hanswer]
      exact ⟨hopen, .inr ⟨by omega, hsocket.later, fun k => stalls_again hanswer⟩⟩
    · obtain ⟨taken, htaken, hleft⟩ := exists_taken (Nat.pos_of_ne_zero hzero) n
      have hstalls : ∀ k, Stalls c.socket.answers (k + 1) c.writeBuf.readableBytes ↔
          Stalls (later c.socket.answers) (k + 1) (c.writeBuf.readableBytes - (n + 1)) := by
        intro k
        rw [stalls_accept hanswer, and_iff_right_iff_imp]
        intro hstall
        by_contra hle
        rw [show c.writeBuf.readableBytes - (n + 1) = 0 by omega] at hstall
        exact not_stalls_zero hstall
      simp only [Socket.write, hanswer, htaken, hstalls, ← hleft]
      exact ih (by dsimp only; omega) hopen hsocket.later

theorem onWrite_stalls (hopen : c.closed = false) (hsocket : NeverFails c.socket.answers) :
    c.onWrite.closed = false ∧
    (c.onWrite.writeBuf.readableBytes = 0 ∧
        (∀ k, ¬ Stalls c.socket.answers (k + 1) c.writeBuf.readableBytes) ∨
      0 < c.onWrite.writeBuf.readableBytes ∧ NeverFails c.onWrite.socket.answers ∧
        ∀ k, Stalls c.socket.answers (k + 1) c.writeBuf.readableBytes ↔
          Stalls c.onWrite.socket.answers k c.onWrite.writeBuf.readableBytes) := by
  rw [onWrite, if_neg (by simp [hopen])]
  exact writeLoop_stalls le_rfl hopen hsocket

/-- An open connection is to have bytes left after each write event. -/
theorem onWrite_iterate_iff (hopen : c.closed = false) (hleft : 0 < c.writeBuf.readableBytes)
    (hsocket : NeverFails c.socket.answers) (k : ℕ) :
    (∀ i ≤ k, (onWrite^[i] c).closed = true ↔ (onWrite^[i] c).writeBuf.readableBytes = 0) ↔
      Stalls c.socket.answers k c.writeBuf.readableBytes := by
  induction k generalizing c with
  | zero =>
    refine iff_of_true (fun i hi => ?_) (stalls_zero hleft)
    obtain rfl : i = 0 := by omega
    simp only [Function.iterate_zero, id, hopen]
    exact iff_of_false nofun (by omega)
  | succ k ih =>
    obtain ⟨hopen', ⟨hdrained, hnot⟩ | ⟨hleft', hsocket', hstalls⟩⟩ := onWrite_stalls hopen hsocket
    · -- the event that sends the last byte leaves the connection open
      refine iff_of_false (fun hall => ?_) (hnot k)
      have hone := (hall 1 (by omega)).mpr hdrained
      rw [Function.iterate_one, hopen'] at hone
      cases hone
    · rw [hstalls, ← ih hopen' hleft' hsocket']
      constructor
      · intro hall i hi
        have hnext := hall (i + 1) (by omega)
        rwa [Function.iterate_succ_apply] at hnext
      · intro hall i hi
        cases i with
        | zero =>
          simp only [Function.iterate_zero, id, hopen]
          exact iff_of_false nofun (by omega)
        | succ i =>
          rw [Function.iterate_succ_apply]
          exact hall i (by omega)

theorem onWrite_iterate_closed (hclosed : c.closed = true) (k : ℕ) : onWrite^[k] c = c := by
  induction k with
  | zero => rfl
  | succ k ih => rw [Function.iterate_succ_apply, onWrite, if_pos hclosed, ih]

/-! ## The two flushes -/

theorem flushWriteBuf_again (hleft : 0 < c.writeBuf.readableBytes)
    (hanswer : c.socket.answers 0 = .again) :
    c.flushWriteBuf =
      { c with
        socket := { c.socket with answers := later c.socket.answers }
        writing := true } := by
  rw [flushWriteBuf, if_neg (by omega)]
  simp only [Socket.write, hanswer]
  rfl

/-- A connection that is not kept alive is closed by any progress. -/
theorem flushWriteBuf_accept {n : ℕ} (hleft : 0 < c.writeBuf.readableBytes)
    (hka : c.keepAlive = false) (hanswer : c.socket.answers 0 = .accept (n + 1)) :
    c.flushWriteBuf.closed = true ∧
      c.flushWriteBuf.writeBuf.readableBytes = c.writeBuf.readableBytes - (n + 1) := by
  obtain ⟨taken, htaken, hrest⟩ := exists_taken hleft n
  rw [flushWriteBuf, if_neg (by omega)]
  simp only [Socket.write, hanswer, htaken]
  split
  · simp only [enableWriting, hka, Bool.false_eq_true, if_false]
    exact ⟨trivial, hrest⟩
  next hnone =>
    simp only [hka, Bool.false_eq_true, if_false]
    refine ⟨trivial, ?_⟩
    rw [show c.writeBuf.readableBytes - (n + 1) = 0 by omega]
    rfl

theorem flushWriteBuf_empty (hleft : c.writeBuf.readableBytes = 0) : c.flushWriteBuf = c := by
  rw [flushWriteBuf, if_pos hleft]

/-- The first write that the socket does not refuse is one of the two flushes, and takes all. -/
def SentAtOnce (answers : ℕ → Answer) (need : ℕ) : Prop :=
  ∃ n, need ≤ n ∧ (answers 0 = .accept n ∨ answers 0 = .again ∧ answers 1 = .accept n)

/-- Both flushes are refused, and the write events up to the `k`-th leave something. -/
def NotYetSent (answers : ℕ → Answer) (k need : ℕ) : Prop :=
  answers 0 = .again ∧ answers 1 = .again ∧ Stalls (later (later answers)) k need

theorem flush_twice_iff (hopen : c.closed = false) (hka : c.keepAlive = false)
    (hleft : 0 < c.writeBuf.readableBytes) (hsocket : NeverFails c.socket.answers) (k : ℕ) :
    ((c.flushWriteBuf.closed = true ↔ c.flushWriteBuf.writeBuf.readableBytes = 0) ∧
      ∀ i ≤ k, (onWrite^[i] c.flushWriteBuf.flushWriteBuf).closed = true ↔
        (onWrite^[i] c.flushWriteBuf.flushWriteBuf).writeBuf.readableBytes = 0) ↔
      SentAtOnce c.socket.answers c.writeBuf.readableBytes ∨
        NotYetSent c.socket.answers k c.writeBuf.readableBytes := by
  obtain hfirst | ⟨n, hfirst⟩ := hsocket.head
  · rw [flushWriteBuf_again hleft hfirst]
    generalize hd : ({ c with
      socket := { c.socket with answers := later c.socket.answers }
      writing := true } : Connection) = d
    have hbuf : d.writeBuf = c.writeBuf := by rw [← hd]
    have hanswers : d.socket.answers = later c.socket.answers := by rw [← hd]
    have hopen' : d.closed = false := by rw [← hd, hopen]
    have hka' : d.keepAlive = false := by rw [← hd, hka]
    have hleft' : 0 < d.writeBuf.readableBytes := hbuf ▸ hleft
    have hsocket' : NeverFails d.socket.answers := hanswers ▸ hsocket.later
    rw [and_iff_right (iff_of_false (by simp [hopen']) (by omega))]
    obtain hsecond | ⟨n, hsecond⟩ := hsocket'.head
    · -- refused twice: the response is left to the write events
      have honce : ¬ SentAtOnce c.socket.answers c.writeBuf.readableBytes := by
        rintro ⟨m, -, h | ⟨-, h⟩⟩
        · cases hfirst.symm.trans h
        · rw [hanswers] at hsecond
          cases hsecond.symm.trans h
      rw [flushWriteBuf_again hleft' hsecond, or_iff_right honce,
        onWrite_iterate_iff (by exact hopen') (by exact hleft') (by exact hsocket'.later)]
      rw [hanswers] at hsecond
      simp only [NotYetSent, hanswers, hbuf]
      exact ⟨fun h => ⟨hfirst, hsecond, h⟩, fun h => h.2.2⟩
    · obtain ⟨hclosed, hrest⟩ := flushWriteBuf_accept hleft' hka' hsecond
      have hwait : ¬ NotYetSent c.socket.answers k c.writeBuf.readableBytes := by
        rintro ⟨-, h, -⟩
        rw [hanswers] at hsecond
        cases hsecond.symm.trans h
      simp only [onWrite_iterate_closed hclosed, hclosed, hrest, hbuf, true_iff, or_iff_left hwait]
      rw [hanswers] at hsecond
      constructor
      · intro h
        exact ⟨n + 1, by have := h 0 (Nat.zero_le _); omega, .inr ⟨hfirst, hsecond⟩⟩
      · rintro ⟨m, hm, h | ⟨-, h⟩⟩ i -
        · cases hfirst.symm.trans h
        · cases hsecond.symm.trans h
          omega
  · obtain ⟨hclosed, hrest⟩ := flushWriteBuf_accept hleft hka hfirst
    have hwait : ¬ NotYetSent c.socket.answers k c.writeBuf.readableBytes := by
      rintro ⟨h, -⟩
      cases hfirst.symm.trans h
    rw [or_iff_left hwait]
    constructor
    · rintro ⟨hdecided, -⟩
      have hzero := hdecided.mp hclosed
      exact ⟨n + 1, by omega, .inl hfirst⟩
    · rintro ⟨m, hm, h | ⟨h, -⟩⟩
      · cases hfirst.symm.trans h
        have hzero : c.flushWriteBuf.writeBuf.readableBytes = 0 := by omega
        rw [flushWriteBuf_empty hzero]
        simp only [onWrite_iterate_closed hclosed, hclosed, hzero, implies_true, and_self]
      · cases hfirst.symm.trans h

/-! ## The response -/

theorem closedOnceSent_iff {sent : Bytes} (hout : c.output = sent) :
    c.ClosedOnceSent sent ↔ (c.closed = true ↔ c.writeBuf.readableBytes = 0) := by
  have hsent : c.socket.accepted = sent ↔ c.writeBuf.readable = [] := by
    rw [← hout, output]
    exact List.self_eq_append_right
  rw [ClosedOnceSent, hsent, and_self, ByteBuf.readable_eq_nil_iff]

/-- The connection with a text behind what is waiting. -/
def loaded (c : Connection) (text : Bytes) : Connection :=
  { c with writeBuf := c.writeBuf.writeBytes text }

@[simp] theorem keepAlive_loaded (c : Connection) (text : Bytes) :
    (c.loaded text).keepAlive = c.keepAlive := rfl

@[simp] theorem closed_loaded (c : Connection) (text : Bytes) :
    (c.loaded text).closed = c.closed := rfl

@[simp] theorem socket_loaded (c : Connection) (text : Bytes) :
    (c.loaded text).socket = c.socket := rfl

theorem readableBytes_loaded (c : Connection) (text : Bytes) :
    (c.loaded text).writeBuf.readableBytes = c.writeBuf.readableBytes + text.length := by
  rw [← ByteBuf.length_readable, loaded]
  simp

theorem flushWriteBuf_keepAlive (c : Connection) : c.flushWriteBuf.keepAlive = c.keepAlive := by
  unfold flushWriteBuf enableWriting
  split
  · rfl
  · dsimp only
    split
    · rfl
    · rfl
    · rfl
    · split <;> split <;> rfl

theorem fireResponse_eq (c : Connection) (resp : HttpResponse) :
    c.fireResponse resp =
      if (c.loaded resp.serialized).isWriteBufOverflow then (c.loaded resp.serialized).close
      else (c.loaded resp.serialized).flushWriteBuf := by
  rw [fireResponse, fireWrite, HttpResponse.readable_toByteBuf]
  rfl

theorem fireResponse_of_unmarked (hmark : c.writeBufWaterMark = 0) (resp : HttpResponse) :
    c.fireResponse resp = (c.loaded resp.serialized).flushWriteBuf := by
  have hmark' : (c.loaded resp.serialized).writeBufWaterMark = 0 := hmark
  rw [fireResponse_eq, if_neg (by simp [isWriteBufOverflow, hmark'])]

theorem setKeepAlive_self {ka : Bool} (h : c.keepAlive = ka) : c.setKeepAlive ka = c := by
  subst h
  rfl

theorem writeAndFlush_of_unmarked (hmark : c.writeBufWaterMark = 0) (hka : c.keepAlive = false)
    (resp : HttpResponse) :
    c.writeAndFlush resp =
      (c.loaded (resp.setKeepAlive false).serialized).flushWriteBuf.flushWriteBuf := by
  have hka' : (c.loaded (resp.setKeepAlive false).serialized).flushWriteBuf.keepAlive = false := by
    rw [flushWriteBuf_keepAlive, keepAlive_loaded, hka]
  rw [writeAndFlush, hka, fireResponse_of_unmarked hmark]
  exact congrArg flushWriteBuf (setKeepAlive_self hka')

theorem onWrite_iterate_output (c : Connection) (k : ℕ) : (onWrite^[k] c).output = c.output := by
  induction k generalizing c with
  | zero => rfl
  | succ k ih => rw [Function.iterate_succ_apply, ih, c.onWrite_spec.1]

/-- Nothing is lost on the way. -/
theorem moment_output (c : Connection) (resp : HttpResponse) (i : ℕ) :
    (c.moment resp i).output = c.output ++ (resp.setKeepAlive c.keepAlive).serialized := by
  have hfire := (c.fireWrite_spec (resp.setKeepAlive c.keepAlive).toByteBuf).1
  rw [HttpResponse.readable_toByteBuf] at hfire
  cases i with
  | zero => exact hfire
  | succ k =>
    have hka : ∀ d : Connection, (if !c.keepAlive then d.setKeepAlive false else d).output =
        d.output := by
      intro d
      split <;> rfl
    rw [moment, onWrite_iterate_output, writeAndFlush, (flushWriteBuf_spec _).1, hka]
    exact hfire

/-- **Closed once sent.** For a request with `Connection: close` on an open connection, any
response and any socket that does not fail, the connection is closed exactly when the response
has been sent, if and only if the socket takes all of it in the first write that it does not
refuse, one of the two flushes, or has not had room for it up to the `k`-th write event. -/
theorem moment_closedOnceSent_iff {req : HttpRequest} (hclose : req.hasConnectionClose = true)
    (hopen : c.closed = false) (hmark : c.writeBufWaterMark = 0)
    (hsocket : NeverFails c.socket.answers) (resp : HttpResponse) (k : ℕ) :
    (∀ i ≤ k + 1, ((c.setKeepAlive (!req.hasConnectionClose)).moment resp i).ClosedOnceSent
      (c.output ++ (resp.setKeepAlive false).serialized)) ↔
    SentAtOnce c.socket.answers
        (c.writeBuf.readableBytes + (resp.setKeepAlive false).serialized.length) ∨
      NotYetSent c.socket.answers k
        (c.writeBuf.readableBytes + (resp.setKeepAlive false).serialized.length) := by
  generalize hd : c.setKeepAlive (!req.hasConnectionClose) = d
  rw [hclose] at hd
  have hka : d.keepAlive = false := by rw [← hd]; rfl
  have hmark' : d.writeBufWaterMark = 0 := by rw [← hd]; exact hmark
  have hout : ∀ i, (d.moment resp i).output = c.output ++ (resp.setKeepAlive false).serialized := by
    intro i
    rw [moment_output, hka, ← hd]
    rfl
  have hzero : d.moment resp 0 = (d.loaded (resp.setKeepAlive false).serialized).flushWriteBuf := by
    rw [moment, hka, fireResponse_of_unmarked hmark']
  have hsucc : ∀ i, d.moment resp (i + 1) =
      onWrite^[i] (d.loaded (resp.setKeepAlive false).serialized).flushWriteBuf.flushWriteBuf := by
    intro i
    rw [moment, writeAndFlush_of_unmarked hmark' hka]
  have hneed := readableBytes_loaded d (resp.setKeepAlive false).serialized
  have hpos := List.length_pos_iff.mpr (resp.setKeepAlive false).serialized_ne_nil
  have hiff := flush_twice_iff (c := d.loaded (resp.setKeepAlive false).serialized)
    (by rw [closed_loaded, ← hd]; exact hopen) (by rw [keepAlive_loaded, hka]) (by omega)
    (by rw [socket_loaded, ← hd]; exact hsocket) k
  rw [hneed, ← hd] at hiff
  refine Iff.trans ?_ hiff
  rw [hd]
  simp only [closedOnceSent_iff (hout _)]
  constructor
  · intro hall
    refine ⟨?_, fun i hi => ?_⟩
    · rw [← hzero]
      exact hall 0 (Nat.zero_le _)
    · rw [← hsucc]
      exact hall (i + 1) (by omega)
  · rintro ⟨hfirst, hrest⟩ i hi
    cases i with
    | zero =>
      rw [hzero]
      exact hfirst
    | succ i =>
      rw [hsucc]
      exact hrest i (by omega)

/-- `GET /` with `Connection: close`. -/
def closeRequest : HttpRequest :=
  ({} : HttpRequest).setRawData (ascii "GET / HTTP/1.1\r\nConnection: close\r\n\r\n") 37
    [⟨16, 10, 5⟩] 37

/-- A connection without a watermark, and a socket that gives some answers and then one forever. -/
def answering (first : List Answer) (last : Answer) : Connection :=
  { socket := { answers := fun i => first.getD i last }, writeBufWaterMark := 0 }

theorem neverFails_answering {first : List Answer} {last : Answer}
    (h : ∀ a ∈ last :: first, a ≠ .fail ∧ a ≠ .accept 0) :
    NeverFails (answering first last).socket.answers := by
  intro i
  refine h _ (List.mem_cons.mpr ?_)
  simp only [answering, List.getD_eq_getElem?_getD]
  cases hget : first[i]? with
  | none => exact .inl rfl
  | some a => exact .inr (List.mem_of_getElem? hget)

/-- The socket refuses once and then takes everything. -/
theorem moment_closedOnceSent_again :
    let c := answering [.again] (.accept 1000)
    ((c.setKeepAlive (!closeRequest.hasConnectionClose)).moment {} 4).ClosedOnceSent
      (c.output ++ (({} : HttpResponse).setKeepAlive false).serialized) :=
  (moment_closedOnceSent_iff (by decide +kernel) rfl rfl (neverFails_answering (by decide)) {}
    3).mpr (.inl ⟨1000, by decide +kernel, .inr ⟨rfl, rfl⟩⟩) 4 le_rfl

/-- A socket that takes one byte: the connection is closed with the rest of the response waiting.
A socket that refuses twice: the write event sends the response and leaves the connection open. -/
theorem not_closedOnceSent :
    let partly := answering [.accept 1] .again
    let slowly := answering [.again, .again] (.accept 1000)
    let c := (partly.setKeepAlive (!closeRequest.hasConnectionClose)).moment {} 1
    let d := (slowly.setKeepAlive (!closeRequest.hasConnectionClose)).moment {} 2
    closeRequest.hasConnectionClose = true ∧
      (NeverFails partly.socket.answers ∧ c.closed = true ∧ c.writeBuf.readable ≠ []) ∧
      NeverFails slowly.socket.answers ∧ d.closed = false ∧ d.writeBuf.readable = [] :=
  ⟨by decide +kernel, ⟨neverFails_answering (by decide), by decide +kernel⟩,
    neverFails_answering (by decide), by decide +kernel⟩

end Connection

end XNetty
