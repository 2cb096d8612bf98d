import XNetty.Bootstrap.Phases

/-!
# What is left of a server

The promise of `ServerBootstrap` can be kept once, and a thread cannot join itself. So the first
stop joins every thread if it comes from outside of the workers, and no later one does.

## Main definitions

* `ServerBootstrap.firstStop` — who stops the server for the first time.
* `ServerBootstrap.StopsOnce` — the server is not stopped by a worker, nor started again.
-/

namespace XNetty

namespace ServerBootstrap

variable {κ : Type*}

/-! ### What callers do -/

inductive Kind where
  | start
  | shutdown
deriving DecidableEq

def Op.kind : Op κ → Option Kind
  | .start _ => some .start
  | .shutdownGracefully _ => some .shutdown
  | _ => none

def Op.caller : Op κ → Option (Caller κ)
  | .shutdownGracefully t => some t
  | _ => none

/-- The first call of `shutdownGracefully` behind the first start. -/
def firstStop : List (Op κ) → Option (Caller κ)
  | [] => none
  | .start _ :: ops => ops.findSome? Op.caller
  | _ :: ops => firstStop ops

/-- The server is not stopped by a worker, nor started again after it was stopped. -/
structure StopsOnce (ops : List (Op κ)) : Prop where
  outside : ∀ id, firstStop ops ≠ some (.worker id)
  once : ¬[Kind.start, .shutdown, .start].Sublist (ops.filterMap Op.kind)

theorem caller_of_kind {op : Op κ} (h : op.kind = none) : op.caller = none := by
  cases op <;> first | rfl | cases h

theorem firstStop_append {ops later : List (Op κ)} (hlater : ∀ op ∈ later, op.kind = none) :
    firstStop (ops ++ later) = firstStop ops := by
  induction ops with
  | nil =>
    induction later with
    | nil => rfl
    | cons op later ih =>
      obtain ⟨hop, hrest⟩ := List.forall_mem_cons.mp hlater
      cases op with
      | start listens => cases hop
      | shutdownGracefully t => cases hop
      | _ => exact ih hrest
  | cons op ops ih =>
    have hnone : later.findSome? Op.caller = none :=
      List.findSome?_eq_none_iff.mpr fun op hop => caller_of_kind (hlater op hop)
    cases op with
    | start listens => simp [firstStop, List.findSome?_append, hnone]
    | _ => exact ih

theorem stopsOnce_append {ops later : List (Op κ)} (hlater : ∀ op ∈ later, op.kind = none) :
    StopsOnce (ops ++ later) ↔ StopsOnce ops := by
  have hkinds : (ops ++ later).filterMap Op.kind = ops.filterMap Op.kind := by
    rw [List.filterMap_append, List.filterMap_eq_nil_iff.mpr hlater, List.append_nil]
  constructor
  · rintro ⟨houtside, honce⟩
    exact ⟨firstStop_append hlater ▸ houtside, hkinds ▸ honce⟩
  · rintro ⟨houtside, honce⟩
    exact ⟨(firstStop_append hlater).symm ▸ houtside, hkinds.symm ▸ honce⟩

/-! ### Runs from each phase -/

open Ledger

variable [DecidableEq κ] {s : ServerBootstrap κ} {t : Caller κ} {st : ShutdownStep}
  {ops : List (Op κ)}

theorem marred_run (h : Marred s) (hallowed : Along step Allowed s ops) : Marred (s.run ops) :=
  hallowed.preserves Marred (fun _ _ h hop => h.step hop) h

/-- A server that is down stays so until it is started again. -/
theorem stopped_run_of_down (h : Down s) (hallowed : Along step Allowed s ops) :
    (s.run ops).Stopped ↔ ¬[Kind.start].Sublist (ops.filterMap Op.kind) := by
  induction ops with
  | nil => exact iff_of_true h.stopped (by simp)
  | cons op ops ih =>
    obtain ⟨-, hrest⟩ := hallowed
    change ((s.step op).run ops).Stopped ↔ _
    cases op with
    | start listens =>
      have hmarred := marred_run (h.start listens) hrest
      exact iff_of_false hmarred.not_stopped (not_not_intro (by simp [Op.kind]))
    | shutdownGracefully t =>
      rw [h.step (by simp)] at hrest ⊢
      simpa [Op.kind] using ih hrest
    | _ =>
      rw [h.step (by simp)] at hrest ⊢
      exact ih hrest

omit [DecidableEq κ] in
theorem sublist_kinds_cons {op : Op κ} (hop : ∀ listens, op ≠ .start listens) :
    [Kind.start].Sublist ((op :: ops).filterMap Op.kind) ↔
      [Kind.start].Sublist (ops.filterMap Op.kind) := by
  cases op with
  | start listens => exact absurd rfl (hop listens)
  | _ => simp [Op.kind]

/-- A call that stops the server joins everything unless it comes from a worker. -/
theorem stopped_run_of_stopping (h : Stopping t st s) (hallowed : Along step Allowed s ops)
    (hidle : (s.run ops).Idle) : (s.run ops).Stopped ↔
      (∀ id, t ≠ .worker id) ∧ ¬[Kind.start].Sublist (ops.filterMap Op.kind) := by
  induction ops generalizing s st with
  | nil =>
    have hcall := hidle t
    rw [show (s.run []).calls t = s.calls t from rfl, h.call] at hcall
    cases hcall
  | cons op ops ih =>
    obtain ⟨hop, hrest⟩ := hallowed
    obtain ⟨hstart, hstep⟩ := h.step hop
    rw [sublist_kinds_cons hstart]
    change ((s.step op).run ops).Stopped ↔ _
    rcases hstep with ⟨st', hst'⟩ | ⟨hdown, houtside⟩ | ⟨hmarred, id, hworker⟩
    · exact ih hst' hrest hidle
    · rw [stopped_run_of_down hdown hrest, and_iff_right houtside]
    · exact iff_of_false (marred_run hmarred hrest).not_stopped fun hboth =>
        hboth.1 id hworker

/-- A server that is up is not marred if its first stop is not a worker's and its last. -/
theorem stopped_run_of_up (h : Up s) (hallowed : Along step Allowed s ops)
    (hidle : (s.run ops).Idle) (hdown : (s.run ops).running = false) : (s.run ops).Stopped ↔
      (∀ id, ops.findSome? Op.caller ≠ some (.worker id)) ∧
        ¬[Kind.shutdown, .start].Sublist (ops.filterMap Op.kind) := by
  induction ops generalizing s with
  | nil =>
    rw [show (s.run []).running = s.running from rfl, h.running] at hdown
    cases hdown
  | cons op ops ih =>
    obtain ⟨hop, hrest⟩ := hallowed
    change ((s.step op).run ops).Stopped ↔ _
    cases op with
    | start listens =>
      have hkinds : [Kind.shutdown, .start].Sublist (.start :: ops.filterMap Op.kind) ↔
          [Kind.shutdown, .start].Sublist (ops.filterMap Op.kind) := by
        simp [List.cons_sublist_cons']
      exact (ih (h.step (by simp)) hrest hidle hdown).trans
        (and_congr_right fun _ => not_congr hkinds.symm)
    | shutdownGracefully t =>
      have hfirst : ∀ id, t ≠ .worker id ↔ some t ≠ some (.worker id) := fun id =>
        not_congr Option.some_inj.symm
      exact (stopped_run_of_stopping (h.shutdownGracefully hop) hrest hidle).trans
        (and_congr (forall_congr' hfirst) (not_congr List.cons_sublist_cons.symm))
    | _ => exact ih (h.step (by simp)) hrest hidle hdown

omit [DecidableEq κ] in
theorem stopsOnce_cons {op : Op κ} (hop : ∀ listens, op ≠ .start listens) :
    StopsOnce (op :: ops) ↔ StopsOnce ops := by
  have hkinds : [Kind.start, .shutdown, .start].Sublist ((op :: ops).filterMap Op.kind) ↔
      [Kind.start, .shutdown, .start].Sublist (ops.filterMap Op.kind) := by
    cases op with
    | start listens => exact absurd rfl (hop listens)
    | shutdownGracefully t =>
      change List.Sublist _ (Kind.shutdown :: ops.filterMap Op.kind) ↔ _
      simp [List.cons_sublist_cons']
    | _ => exact Iff.rfl
  have hfirst : firstStop (op :: ops) = firstStop ops := by
    cases op with
    | start listens => exact absurd rfl (hop listens)
    | _ => rfl
  constructor
  · rintro ⟨houtside, honce⟩
    exact ⟨hfirst ▸ houtside, mt hkinds.mpr honce⟩
  · rintro ⟨houtside, honce⟩
    exact ⟨hfirst.symm ▸ houtside, mt hkinds.mp honce⟩

theorem stopped_run_of_fresh (h : Fresh s) (hallowed : Along step Allowed s ops)
    (hidle : (s.run ops).Idle) (hdown : (s.run ops).running = false) :
    (s.run ops).Stopped ↔ StopsOnce ops := by
  induction ops with
  | nil => exact iff_of_true h.stopped ⟨by simp [firstStop], by simp⟩
  | cons op ops ih =>
    obtain ⟨hop, hrest⟩ := hallowed
    by_cases hstart : ∃ listens, op = .start listens
    · obtain ⟨listens, rfl⟩ := hstart
      have hup : Up (s.step (.start listens)) := by
        rw [step_eq_act h.stopped.broken]
        exact h.start listens
      change ((s.step (.start listens)).run ops).Stopped ↔ _
      rw [stopped_run_of_up hup hrest hidle hdown]
      constructor
      · rintro ⟨houtside, honce⟩
        exact ⟨houtside, mt List.cons_sublist_cons.mp honce⟩
      · rintro ⟨houtside, honce⟩
        exact ⟨houtside, mt List.cons_sublist_cons.mpr honce⟩
    · have hop : ∀ listens, op ≠ .start listens := fun listens heq => hstart ⟨listens, heq⟩
      have hstep := h.step hop
      have hrun : s.run (op :: ops) = s.run ops := congrArg (run · ops) hstep
      rw [hrun] at hidle hdown ⊢
      rw [hstep] at hrest
      exact (ih hrest hidle hdown).trans (stopsOnce_cons hop).symm

/-! ### Calls come to an end -/

/-- The thread that a call waits for leaves its loop. -/
theorem Stopping.exists_released (h : Stopping t st s) : ∃ later : List (Op κ),
    (∀ op ∈ later, op.kind = none) ∧ Stopping t st (s.run later) ∧ ¬Waits t (s.run later) st ∧
      rank (s.run later) st = rank s st := by
  by_cases hwaits : Waits t s st
  swap
  · exact ⟨[], by simp, h, hwaits, rfl⟩
  cases st with
  | joinBoss =>
    have hboss : s.bossThread = some false := hwaits
    have hexit : s.run [.exitBoss false] = { s with bossThread := some true } := by
      change s.step (.exitBoss false) = _
      rw [step_eq_act h.broken]
      simp [act, ServerBootstrap.exitBoss, h.bossStopped rfl, hboss]
    refine ⟨[.exitBoss false], by simp [Op.kind], ?_, ?_, ?_⟩
    · change Stopping t .joinBoss (s.step (.exitBoss false))
      rw [step_eq_act h.broken]
      exact h.exitBoss false
    · rw [hexit]
      simp [Waits]
    · rw [hexit]
      rfl
  | join i =>
    obtain ⟨w, hw, hother, -⟩ := hwaits
    have hcall : s.calls (.worker w.id) = none := h.others _ hother.symm
    have hquit : w.quit = true := h.quit ⟨i, rfl⟩ w (List.mem_of_getElem? hw)
    have hexit : s.run [.exit w.id false] =
        { s with threads := s.threads.map (WorkerThread.exit w.id false) } := by
      change s.step (.exit w.id false) = _
      rw [step_eq_act h.broken]
      simp [act, ServerBootstrap.exit, hcall]
    refine ⟨[.exit w.id false], by simp [Op.kind], ?_, ?_, ?_⟩
    · change Stopping t (.join i) (s.step (.exit w.id false))
      rw [step_eq_act h.broken]
      exact h.exit w.id false
    · rw [hexit]
      rintro ⟨v, hv, -, hexited⟩
      rw [List.getElem?_map, hw] at hv
      obtain rfl := Option.some.inj hv
      simp [WorkerThread.exit, hquit] at hexited
    · rw [hexit]
      simp [rank]
  | _ => exact hwaits.elim

/-- Whoever stops a server comes to an end. -/
theorem Stopping.exists_idle (h : Stopping t st s) : ∃ later : List (Op κ),
    (∀ op ∈ later, op.kind = none) ∧ (s.run later).Idle := by
  induction hn : rank s st using Nat.strong_induction_on generalizing s st with
  | _ n ih =>
    obtain ⟨later, hlater, hreleased, hgoes, hrank⟩ := h.exists_released
    have hnext : s.run (later ++ [.next t]) = (s.run later).next t := by
      rw [run, List.foldl_append]
      exact step_eq_act hreleased.broken _
    have hkinds : ∀ op ∈ later ++ [.next t], op.kind = none := by
      rw [List.forall_mem_append, List.forall_mem_singleton]
      exact ⟨hlater, rfl⟩
    rcases hreleased.next hgoes with ⟨st', hst', hless⟩ | ⟨hdown, -⟩ | ⟨-, hidle, -⟩
    · obtain ⟨more, hmore, hidle⟩ := ih _ (by omega) hst' rfl
      refine ⟨later ++ [.next t] ++ more, List.forall_mem_append.mpr ⟨hkinds, hmore⟩, ?_⟩
      rw [run, List.foldl_append]
      change (run (s.run (later ++ [.next t])) more).Idle
      rwa [hnext]
    · exact ⟨later ++ [.next t], hkinds, hnext ▸ hdown.idle⟩
    · exact ⟨later ++ [.next t], hkinds, hnext ▸ hidle⟩

/-- The phase of a server. -/
def InPhase (s : ServerBootstrap κ) : Prop :=
  Fresh s ∨ Up s ∨ (∃ t st, Stopping t st s) ∨ Down s ∨ Marred s

theorem InPhase.step (h : InPhase s) {op : Op κ} (hop : s.Allowed op) : InPhase (s.step op) := by
  rcases h with h | h | ⟨t, st, h⟩ | h | h
  · by_cases hstart : ∃ listens, op = .start listens
    · obtain ⟨listens, rfl⟩ := hstart
      rw [step_eq_act h.stopped.broken]
      exact .inr (.inl (h.start listens))
    · rw [h.step fun listens heq => hstart ⟨listens, heq⟩]
      exact .inl h
  · by_cases hcall : ∃ t, op = .shutdownGracefully t
    · obtain ⟨t, rfl⟩ := hcall
      exact .inr (.inr (.inl ⟨t, .setValue, h.shutdownGracefully hop⟩))
    · exact .inr (.inl (h.step fun t heq => hcall ⟨t, heq⟩))
  · rcases (h.step hop).2 with ⟨st', hst'⟩ | ⟨hdown, -⟩ | ⟨hmarred, -⟩
    · exact .inr (.inr (.inl ⟨t, st', hst'⟩))
    · exact .inr (.inr (.inr (.inl hdown)))
    · exact .inr (.inr (.inr (.inr hmarred)))
  · by_cases hstart : ∃ listens, op = .start listens
    · obtain ⟨listens, rfl⟩ := hstart
      exact .inr (.inr (.inr (.inr (h.start listens))))
    · rw [h.step fun listens heq => hstart ⟨listens, heq⟩]
      exact .inr (.inr (.inr (.inl h)))
  · exact .inr (.inr (.inr (.inr (h.step hop))))

theorem Marred.exists_idle (h : Marred s) : ∃ later : List (Op κ),
    (∀ op ∈ later, op.kind = none) ∧ (s.run later).Idle := by
  by_cases hidle : s.Idle
  · exact ⟨[], by simp, hidle⟩
  obtain ⟨t, ht⟩ := not_forall.mp hidle
  obtain ⟨st, hst⟩ := Option.ne_none_iff_exists'.mp ht
  obtain ⟨rfl, -, hbroken, hothers⟩ := h.call t st hst
  refine ⟨[.next t], by simp [Op.kind], ?_⟩
  change (s.step (.next t)).Idle
  rw [step_eq_act hbroken]
  have hnext : s.next t = s.setCall t none := by simp [next, hst, h.promised]
  change (s.next t).Idle
  rw [hnext]
  exact setCall_idle hothers

theorem InPhase.exists_idle (h : InPhase s) : ∃ later : List (Op κ),
    (∀ op ∈ later, op.kind = none) ∧ (s.run later).Idle := by
  rcases h with h | h | ⟨t, st, h⟩ | h | h
  · exact ⟨[], by simp, h.idle⟩
  · exact ⟨[], by simp, h.idle⟩
  · exact h.exists_idle
  · exact ⟨[], by simp, h.idle⟩
  · exact h.exists_idle

/-! ### Whole runs -/

/-- A server with so many worker threads. -/
def new (κ : Type*) (workerThreads : ℕ) : ServerBootstrap κ := { workerThreads }

omit [DecidableEq κ] in
theorem fresh_new (n : ℕ) : Fresh (new κ n) :=
  ⟨rfl, rfl, rfl, ⟨rfl, rfl, rfl⟩, fun _ => rfl⟩

@[simp] theorem setCall_running (next : Option ShutdownStep) :
    (s.setCall t next).running = s.running := rfl

theorem running_next : (s.next t).running = s.running := by
  unfold next
  split
  · rfl
  · split <;> rfl
  · rfl
  · split <;> rfl
  · split <;> rfl
  · unfold join
    split
    · rfl
    · split_ifs <;> rfl

/-- Only those who start and stop the server change whether it is running. -/
theorem running_step {op : Op κ} (hop : op.kind = none) :
    (s.step op).running = s.running := by
  by_cases hbroken : s.broken = true
  · rw [step_of_broken hbroken]
  rw [step_eq_act (by simpa using hbroken)]
  cases op with
  | start listens => cases hop
  | shutdownGracefully t => cases hop
  | next t => exact running_next
  | exitBoss pollFails =>
    obtain ⟨thread, -, heq⟩ := exitBoss_eq (s := s) pollFails
    exact (congrArg ServerBootstrap.running heq :)
  | exit id pollFails =>
    obtain ⟨f, -, heq⟩ := exit_eq (s := s) id pollFails
    exact (congrArg ServerBootstrap.running heq :)

theorem running_run {later : List (Op κ)} (hlater : ∀ op ∈ later, op.kind = none) :
    (s.run later).running = s.running := by
  induction later generalizing s with
  | nil => rfl
  | cons op later ih =>
    obtain ⟨hop, hrest⟩ := List.forall_mem_cons.mp hlater
    exact (ih hrest).trans (running_step hop)

/-- What goes on by itself may always do so. -/
theorem along_of_kind {later : List (Op κ)} (hlater : ∀ op ∈ later, op.kind = none) :
    Along step Allowed s later := by
  induction later generalizing s with
  | nil => trivial
  | cons op later ih =>
    obtain ⟨hop, hrest⟩ := List.forall_mem_cons.mp hlater
    refine ⟨?_, ih hrest⟩
    cases op with
    | start listens => cases hop
    | shutdownGracefully t => cases hop
    | _ => trivial

/-- **Stopping a server.** Whatever the order in which threads call and go on, a server that is
no longer running comes to a state in which no call is under way. There nothing is left to join
if and only if the first call that stopped it was not a worker's, and it was not started again
after that. -/
theorem run_stopped_iff (n : ℕ) {ops : List (Op κ)} (hallowed : Along step Allowed (new κ n) ops)
    (hdown : ((new κ n).run ops).running = false) :
    (∃ later, (∀ op ∈ later, Op.kind op = none) ∧ ((new κ n).run (ops ++ later)).Idle) ∧
      ∀ later, (∀ op ∈ later, Op.kind op = none) → ((new κ n).run (ops ++ later)).Idle →
        (((new κ n).run (ops ++ later)).Stopped ↔ StopsOnce ops) := by
  have hrun : ∀ later, (new κ n).run (ops ++ later) = ((new κ n).run ops).run later :=
    fun later => List.foldl_append
  constructor
  · have hphase : InPhase ((new κ n).run ops) :=
      hallowed.preserves InPhase (fun _ _ h hop => h.step hop) (.inl (fresh_new n))
    obtain ⟨later, hlater, hidle⟩ := hphase.exists_idle
    exact ⟨later, hlater, (hrun later).symm ▸ hidle⟩
  · intro later hlater hidle
    have hall : Along step Allowed (new κ n) (ops ++ later) :=
      (along_append _ _ _).mpr ⟨hallowed, along_of_kind hlater⟩
    have hdown' : ((new κ n).run (ops ++ later)).running = false := by
      rw [hrun, running_run hlater, hdown]
    exact (stopped_run_of_fresh (fresh_new n) hall hidle hdown').trans (stopsOnce_append hlater)

/-- Two threads stop a server at once. -/
theorem run_stopped_iff_twoCallers : ∃ later, ((new Bool 2).run
    ([.start true, .shutdownGracefully (.outside false), .shutdownGracefully (.outside true)] ++
      later)).Stopped := by
  have houtside (b : Bool) (id : ℕ) : Caller.outside b ≠ .worker id := by simp
  have hallowed : Along step Allowed (new Bool 2) [.start true,
      .shutdownGracefully (.outside false), .shutdownGracefully (.outside true)] :=
    ⟨fun _ => rfl, ⟨rfl, fun id h => absurd h (houtside false id)⟩,
      ⟨rfl, fun id h => absurd h (houtside true id)⟩, trivial⟩
  obtain ⟨⟨later, hlater, hidle⟩, hall⟩ := run_stopped_iff 2 hallowed rfl
  refine ⟨later, (hall later hlater hidle).mpr ⟨fun id => ?_, by decide⟩⟩
  exact mt Option.some.inj (houtside false id)

/-- A handler that stops its server leaves its own thread. -/
example : ((new Bool 1).run [.start true, .shutdownGracefully (.worker 0), .next (.worker 0),
    .next (.worker 0), .exitBoss false, .next (.worker 0), .next (.worker 0), .next (.worker 0),
    .exit 0 false]).threads = [{ id := 0, quit := true, exited := true }] := by
  decide

end ServerBootstrap

end XNetty
