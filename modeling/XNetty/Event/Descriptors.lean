import XNetty.Event.Closing
import XNetty.Event.Unwinding

/-!
# Descriptors

The channel of a connection holds its descriptor from `setupConnection` until `removeConn` or
the destructor closes it, and `-1` from then on. Every system call reads the descriptor from
the channel, so what comes after the call of `close` is made with `-1`.

## Main definitions

* `Conn.Spent` — a descriptor that the connection has closed is no longer its own.
-/

namespace XNetty.Event

open Reentrant

/-- After the second entry is made the descriptor closed by the first has not been used. -/
def LogEntry.Unused (e e' : LogEntry) : Prop :=
  ∀ n, e = .sys .close (some n) → ∀ call, e' ≠ .sys call (some n)

namespace Conn

/-- No descriptor is used after it has been closed, nor can it be. -/
structure Spent (c : Conn) : Prop where
  unused : c.log.Pairwise LogEntry.Unused
  gone : ∀ n, .sys .close (some n) ∈ c.log → c.stage ≠ .unborn ∧ c.fd = none
  fresh : c.stage = .unborn → c.fd = none

theorem spent_new (socket : Socket) : Spent { socket := socket } :=
  ⟨.nil, fun n h => absurd h (by simp), fun _ => rfl⟩

/-- Entries that do not use a closed descriptor, and do not close one. -/
theorem Spent.append {c c' : Conn} (h : c.Spent)
    (hstep : c'.stage = c.stage ∧ c'.fd = c.fd ∨
      c'.stage ≠ .unborn ∧ (c.stage = .unborn ∨ c'.fd = c.fd))
    {entries : List LogEntry} (hlog : c'.log = c.log ++ entries)
    (hentries : ∀ e ∈ entries, (∀ fd, e ≠ .sys .close fd) ∧
      ∀ call n, e = .sys call (some n) → c.fd = some n ∨ c.stage = .unborn) : c'.Spent where
  unused := by
    rw [hlog, List.pairwise_append]
    refine ⟨h.unused, ?_, ?_⟩
    · refine List.pairwise_of_forall_mem_list fun e he e' _ n hclose => ?_
      exact absurd hclose ((hentries e he).1 _)
    · rintro e he e' he' n rfl call rfl
      obtain ⟨hborn, hnone⟩ := h.gone n he
      rcases (hentries _ he').2 call n rfl with hsome | hunborn
      · rw [hnone] at hsome
        cases hsome
      · exact hborn hunborn
  gone := by
    intro n hn
    rw [hlog] at hn
    rcases List.mem_append.mp hn with hold | hnew
    · obtain ⟨hborn, hnone⟩ := h.gone n hold
      rcases hstep with ⟨hstage, hfd⟩ | ⟨hborn', hunborn | hfd⟩
      · exact ⟨by rwa [hstage], hfd.trans hnone⟩
      · exact absurd hunborn hborn
      · exact ⟨hborn', hfd.trans hnone⟩
    · exact absurd rfl ((hentries _ hnew).1 (some n))
  fresh := by
    intro hunborn
    rcases hstep with ⟨hstage, hfd⟩ | ⟨hborn, -⟩
    · exact hfd.trans (h.fresh (hstage.symm.trans hunborn))
    · exact absurd hunborn hborn

theorem Spent.of_logs {c c' : Conn} (h : c.Spent) {closed cleared : Bool}
    (hstatus : c'.status = { c.status with closed, cleared }) (hlogs : Logs c c') : c'.Spent := by
  obtain ⟨entries, hlog, hentries⟩ := hlogs
  refine h.append (.inl ⟨congrArg Status.stage hstatus, congrArg Status.fd hstatus⟩) hlog ?_
  intro e he
  rcases hentries e he with ⟨i, ev, rfl⟩ | ⟨call, hclose, rfl⟩
  · exact ⟨nofun, nofun⟩
  · exact ⟨fun fd heq => hclose (LogEntry.sys.inj heq).1,
      fun call' n heq => .inl (LogEntry.sys.inj heq).2⟩

/-- The descriptor is closed after other system calls and given up. -/
theorem Spent.close {c c' : Conn} (h : c.Spent) {n : ℕ} (hfd : c.fd = some n)
    (hstage : c'.stage = c.stage ∨ c'.stage = .destroyed) (hgone : c'.fd = none)
    (calls : List Syscall)
    (hcalls : .close ∉ calls) (hlog : c'.log = (c.sys (calls ++ [.close])).log) : c'.Spent where
  unused := by
    have hnone : ∀ m, LogEntry.sys .close (some m) ∉ c.log := by
      intro m hm
      have := (h.gone m hm).2
      rw [hfd] at this
      cases this
    have hfirst : ∀ e ∈ c.log ++ calls.map (LogEntry.sys · c.fd),
        ∀ m, e ≠ .sys .close (some m) := by
      rintro e he m rfl
      rcases List.mem_append.mp he with hold | hnew
      · exact hnone m hold
      · obtain ⟨call, hcall, heq⟩ := List.mem_map.mp hnew
        rw [(LogEntry.sys.inj heq).1] at hcall
        exact hcalls hcall
    rw [hlog]
    simp only [sys, note, List.map_append, ← List.append_assoc]
    rw [List.pairwise_append]
    refine ⟨?_, by simp, fun e he e' _ m heq => absurd heq (hfirst e he m)⟩
    exact List.pairwise_of_forall_mem_list fun e he e' _ m heq => absurd heq (hfirst e he m)
  gone := by
    refine fun _ _ => ⟨fun hunborn => ?_, hgone⟩
    rcases hstage with hstage | hstage
    · have := h.fresh (hstage.symm.trans hunborn)
      rw [hfd] at this
      cases this
    · rw [hunborn] at hstage
      cases hstage
  fresh := fun _ => hgone

end Conn

/-! ### What the worker does -/

variable {ι : Type*} [DecidableEq ι]

/-- Nothing the worker does, for whatever reason, uses a closed descriptor. -/
theorem spent_go (f : Frame) {c : Conn} (h : c.Spent) : ((worker ι).go f c).1.Spent := by
  cases f with
  | setup fd handlers waterMark =>
    simp only [worker, Conn.setupConnection]
    split
    · rename_i hunborn
      refine h.append (.inr ⟨fun h => (by cases h), .inl hunborn⟩) rfl ?_
      intro e he
      obtain rfl := List.mem_singleton.mp he
      exact ⟨fun fd => by simp, fun call n _ => .inr hunborn⟩
    · exact h
  | activate => exact h
  | add => exact h.append (.inl ⟨rfl, rfl⟩) (List.append_nil _).symm (by simp)
  | onRead n => exact h.of_logs (c.onRead_status n) (c.onRead_logs n)
  | checkClosed => exact h
  | onWrite => exact h.of_logs c.onWrite_status c.onWrite_calls.logs
  | onError => exact h.of_logs c.onError_status c.onError_calls.logs
  | timeout => exact h.of_logs c.timeout_status (Conn.Calls.of_log rfl).logs
  | removeConn => exact h.of_logs c.removeConn_status c.removeConn_calls.logs
  | closeChannel =>
    simp only [worker, Conn.closeChannel]
    cases hfd : c.fd with
    | none =>
      exact h.append (.inl ⟨rfl, rfl⟩) (List.append_nil _).symm (by simp)
    | some n =>
      exact h.close hfd (.inl rfl) rfl [.pollerDel, .pollerDel] (by simp) rfl
  | deliver ev i => exact h.of_logs (c.deliver_status ev i) (c.deliver_logs ev i)
  | workerGone =>
    exact h.append (.inl ⟨rfl, rfl⟩) (List.append_nil _).symm (by simp)
  | release =>
    simp only [worker, Conn.release]
    split
    · rename_i halive
      cases hfd : c.fd with
      | none =>
        exact h.append (.inr ⟨fun h => (by cases h), .inr (by simp [hfd])⟩)
          (List.append_nil _).symm (by simp)
      | some n =>
        refine h.close hfd (.inr rfl) rfl (if c.loopAlive then [.pollerDel] else []) ?_ ?_
        · split <;> simp
        · simp [Conn.sys, Conn.note, hfd]
    · exact h

theorem spent_inductive : (worker ι).Inductive {} fun c _ => c.Spent where
  start := fun _ _ _ h => h
  go := fun f _ _ _ h => spent_go f h
  call := fun a c _ _ h => h.of_logs (call_status a c) (call_logs a c)
  drop := fun _ _ _ _ _ h => h

/-- **Descriptors.** Whatever connections are accepted and whatever happens to the worker, its
connections and those who hold on to them: once the descriptor of a connection has been passed
to `close`, no system call is made with it for this connection. -/
theorem run_descriptors (sockets : ι → Socket) (choices : List (Choice ι Api (WorkerEvent ι)))
    (c : ι) : (((newWorker sockets).run (worker ι) choices).objects c).log.Pairwise
      fun e e' => ∀ n, e = .sys .close (some n) → ∀ call, e' ≠ .sys call (some n) :=
  (spent_inductive.run_of_trivial (fun i => Conn.spent_new (sockets i)) choices c).unused

end XNetty.Event
