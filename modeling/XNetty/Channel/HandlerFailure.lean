import XNetty.Channel.Dispatch

/-!
# Handlers that throw

An exception that leaves a handler is logged by `callH`, and that is all: nobody calls
`exceptionCaught`, and nothing closes the connection. Behind an event in which a handler has thrown
the connection is closed if code that the event has run has closed it by itself.

## Main definitions

* `Dispatch.Failure` — a handler throws while an event is processed on an open connection.
* `Dispatch.ClosedAfterwards` — the connection is closed behind it, whoever has been skipped.
* `Dispatch.closedAfterwards_iff` — when it is.
-/

namespace XNetty.Dispatch

open Reentrant

/-! ### Who closes -/

/-- A flush closes the connection by itself: the socket takes nothing, or some bytes of a
connection that is not kept alive. -/
def flushCloses (c : Connection) : Bool :=
  c.writeBuf.readableBytes ≠ 0 &&
    match (c.socket.write c.writeBuf.readable).1 with
    | .again => false
    | .fail => true
    | .count n => n = 0 || !c.keepAlive

/-- The call closes an open connection. -/
def Api.closes (s : Served) : Api → Bool
  | .close => true
  | .flush => flushCloses s.toConnection
  | .fireWrite 0 (some buf) =>
    let c := { s.toConnection with writeBuf := s.writeBuf.writeBytes buf.readable }
    c.isWriteBufOverflow || flushCloses c
  | _ => false

/-- Outside code makes such a call. -/
def closes (m : Machine Unit Served Frame) : Choice Unit Api Event → Bool
  | .call i a =>
    match m.stack with
    | .outside _ :: _ => a.closes (m.objects i)
    | _ => false
  | _ => false

theorem closed_flush (c : Connection) : c.flush.closed = (c.closed || flushCloses c) := by
  unfold Connection.flush Connection.flushWriteBuf flushCloses
  split_ifs with hempty
  · simp [hempty]
  · cases hwrite : c.socket.write c.writeBuf.readable with
    | mk n socket =>
      cases n with
      | again => simp [Connection.enableWriting]
      | fail => simp [hempty]
      | count n =>
        cases n with
        | zero => simp [hempty]
        | succ n =>
          by_cases hrest : 0 < (c.writeBuf.discard (n + 1)).readableBytes
          · cases c.keepAlive <;> simp [hempty, hrest, Connection.enableWriting]
          · cases c.keepAlive <;> simp [hempty, hrest]

namespace Served

variable (s : Served)

@[simp] theorem closed_callH (ev : Event) (i : ℕ) : (s.callH ev i).1.closed = s.closed := rfl

@[simp] theorem closed_forNext (ev : Event) (start : ℕ) :
    (s.forNext ev start).1.closed = s.closed := by
  unfold forNext
  split <;> rfl

@[simp] theorem closed_forPrevOutbound (ev : Event) (count : ℕ) :
    (s.forPrevOutbound ev count).1.closed = s.closed := by
  unfold forPrevOutbound
  split <;> rfl

@[simp] theorem closed_fire (ev : Event) : (s.fire ev).1.closed = s.closed := by
  unfold fire
  split <;> simp

@[simp] theorem closed_all (ev : Event) (i : ℕ) : (s.all ev i).1.closed = s.closed := by
  unfold all
  split
  · rfl
  · split <;> rfl

@[simp] theorem closed_forward (ev : Event) (i : ℕ) : (s.forward ev i).1.closed = s.closed := by
  unfold forward
  split <;> simp

@[simp] theorem closed_close : s.close.1.closed = true := by
  unfold close
  split_ifs with h
  · exact h
  · rfl

theorem closed_fireWrite (i : ℕ) (msg : Option ByteBuf) :
    (s.fireWrite i msg).1.closed = (s.closed || (Api.fireWrite i msg).closes s) := by
  cases i with
  | succ i => simp [fireWrite, Api.closes]
  | zero =>
    cases msg with
    | none => simp [fireWrite, Api.closes]
    | some buf =>
      simp only [fireWrite, Api.closes, if_true]
      split_ifs with hoverflow
      · simp [hoverflow]
      · simp [closed_flush, hoverflow]

end Served

/-- **One call.** -/
theorem closed_call (s : Served) (a : Api) :
    (pipeline.call a s).1.closed = (s.closed || a.closes s) := by
  cases a with
  | close => simp [pipeline, Api.closes]
  | flush => exact closed_flush s.toConnection
  | setKeepAlive ka => simp [pipeline, Api.closes]
  | fire ev => simp [pipeline, Api.closes]
  | forward ev i => simp [pipeline, Api.closes]
  | fireWrite i msg => exact s.closed_fireWrite i msg
  | edit handlers => simp [pipeline, Api.closes]

/-- **One step.** An exception, like a return, leaves the connection as it is. -/
theorem closed_step (m : Machine Unit Served Frame) (choice : Choice Unit Api Event) :
    ((m.step pipeline choice).objects ()).closed =
      ((m.objects ()).closed || closes m choice) := by
  obtain ⟨objects, stack⟩ := m
  cases choice with
  | start ev => cases stack <;> simp [Machine.step, closes]
  | go =>
    match stack with
    | [] | .outside _ :: _ => simp [Machine.step, closes]
    | .frame () f :: rest => cases f <;> simp [Machine.step, closes, pipeline]
  | call i a =>
    match stack with
    | [] | .frame _ _ :: _ => simp [Machine.step, closes]
    | .outside _ :: rest => simpa [Machine.step, closes] using closed_call (objects i) a
  | ret =>
    match stack with
    | [] | .frame _ _ :: _ | .outside _ :: _ => simp [Machine.step, closes]
  | throw =>
    match stack with
    | [] | .frame _ _ :: _ | .outside _ :: _ => simp [Machine.step, closes]

/-- **Runs.** -/
theorem closed_run (m : Machine Unit Served Frame) (choices : List (Choice Unit Api Event)) :
    ((m.run pipeline choices).objects ()).closed = true ↔
      (m.objects ()).closed = true ∨
        ∃ done choice, done ++ [choice] <+: choices ∧
          closes (m.run pipeline done) choice = true := by
  induction choices generalizing m with
  | nil =>
    simp [Machine.run]
  | cons c choices ih =>
    have hrun : m.run pipeline (c :: choices) = (m.step pipeline c).run pipeline choices := rfl
    rw [hrun, ih, closed_step, Bool.or_eq_true, or_assoc]
    refine or_congr_right ?_
    constructor
    · rintro (hfirst | ⟨done, choice, hprefix, hcloses⟩)
      · exact ⟨[], c, by simp, hfirst⟩
      · exact ⟨c :: done, choice, by simpa using hprefix, hcloses⟩
    · rintro ⟨done, choice, hprefix, hcloses⟩
      cases done with
      | nil =>
        obtain ⟨rfl, -⟩ := List.cons_prefix_cons.mp hprefix
        exact .inl hcloses
      | cons d done =>
        obtain ⟨rfl, htail⟩ := List.cons_prefix_cons.mp hprefix
        exact .inr ⟨done, choice, htail, hcloses⟩

/-! ### Failures -/

/-- An event is processed on an open connection, until the control returns to the worker, and some
handler throws on the way. Everything between is the handlers' choice. -/
structure Failure (m : Machine Unit Served Frame) (ev : Event)
    (choices : List (Choice Unit Api Event)) : Prop where
  isOpen : (m.objects ()).closed = false
  idle : m.stack = []
  oneEvent : ∀ ev', .start ev' ∉ choices
  returned : (m.run pipeline (.start ev :: choices)).stack = []
  threw : ∃ done, done ++ [.throw] <+: choices ∧
    ∃ guarded rest, (m.run pipeline (.start ev :: done)).stack = .outside guarded :: rest

/-- The handler has a callback for the event, which has not been called. -/
def Skipped (ev : Event) (s : Served) (i : ℕ) : Prop :=
  ∃ e, s.handlers[i]? = some e ∧ ev.reaches e = true ∧ (i, ev) ∉ s.seen

/-- The connection is closed, and nobody has been skipped on an open one. -/
def ClosedAfterwards (ev : Event) (s : Served) : Prop :=
  s.closed = true ∧ ∀ i, Skipped ev s i → s.closed = true

/-- **A failure of a handler** leaves the connection closed exactly if a call that closes it has
been made while the event was processed: `close`, or a write or flush that does not succeed or ends
the connection. -/
theorem closedAfterwards_iff {m : Machine Unit Served Frame} {ev : Event}
    {choices : List (Choice Unit Api Event)} (h : Failure m ev choices) :
    ClosedAfterwards ev ((m.run pipeline (.start ev :: choices)).objects ()) ↔
      ∃ done choice, done ++ [choice] <+: choices ∧
        closes (m.run pipeline (.start ev :: done)) choice = true := by
  have hstart : ((m.step pipeline (.start ev)).objects ()).closed = false := by
    rw [closed_step, h.isOpen]
    rfl
  have hrun (cs : List (Choice Unit Api Event)) :
      m.run pipeline (.start ev :: cs) = (m.step pipeline (.start ev)).run pipeline cs := rfl
  unfold ClosedAfterwards
  rw [and_iff_left_of_imp fun hclosed i _ => hclosed, hrun, closed_run, hstart]
  simp [hrun]

/-- A connection with these handlers. -/
def idleOn (handlers : List Entry) : Machine Unit Served Frame where
  objects _ := { socket := ⟨fun _ => .again, []⟩, handlers }

/-- The handler closes the connection before it throws. -/
theorem closedAfterwards_idleOn :
    ClosedAfterwards .channelRead (((idleOn [{}]).run pipeline
      [.start .channelRead, .go, .call () .close, .go, .ret, .go, .throw]).objects ()) :=
  (closedAfterwards_iff
    { isOpen := rfl
      idle := rfl
      oneEvent := by simp
      returned := rfl
      threw := ⟨[.go, .call () .close, .go, .ret, .go], by simp, _, _, rfl⟩ }).mpr
    ⟨[.go], .call () .close, by simp, rfl⟩

/-- Without that, the connection stays open, and the second handler has seen nothing. -/
theorem not_closedAfterwards_idleOn :
    Failure (idleOn [{}, {}]) .channelRead [.go, .throw] ∧
      Skipped .channelRead (((idleOn [{}, {}]).run pipeline
        [.start .channelRead, .go, .throw]).objects ()) 1 ∧
      ¬ ClosedAfterwards .channelRead (((idleOn [{}, {}]).run pipeline
        [.start .channelRead, .go, .throw]).objects ()) := by
  refine ⟨⟨rfl, rfl, by simp, rfl, [.go], by simp, _, _, rfl⟩, ⟨{}, rfl, rfl, by decide⟩, ?_⟩
  intro h
  exact absurd h.1 (by decide)

end XNetty.Dispatch
