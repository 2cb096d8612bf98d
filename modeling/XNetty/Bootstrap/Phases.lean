import XNetty.Bootstrap.ServerBootstrap

/-!
# The phases of a server

However the threads interleave, a server passes through few phases: it is new, up, being stopped
by one call, and down. A server that was marred on the way keeps threads that nobody joins.

## Main definitions

* `ServerBootstrap.Fresh`, `Up`, `Stopping`, `Down`, `Marred` — the phases.
* `ServerBootstrap.Waits`, `Advances` — a call that waits, and one that goes on.
-/

namespace XNetty

/-- The place of the thread that is joined next. -/
def ShutdownStep.place : ShutdownStep → ℕ
  | .join i => i
  | _ => 0

namespace ServerBootstrap

variable {κ : Type*}

/-! ### Phases -/

/-- No call is under way. -/
def Idle (s : ServerBootstrap κ) : Prop := ∀ t, s.calls t = none

/-- Nothing was started yet. -/
structure Fresh (s : ServerBootstrap κ) : Prop where
  running : s.running = false
  promised : s.promised = false
  groupRunning : s.groupRunning = false
  stopped : s.Stopped
  idle : s.Idle

structure Up (s : ServerBootstrap κ) : Prop where
  running : s.running = true
  promised : s.promised = false
  groupRunning : s.groupRunning = true
  threads : s.threads ≠ []
  joinable : ∀ w ∈ s.threads, w.joinable = true
  bossLoop : s.bossLoop.isSome = true
  broken : s.broken = false
  idle : s.Idle

/-- The call of `t` is the only one under way, and does `st` next. -/
structure Stopping (t : Caller κ) (st : ShutdownStep) (s : ServerBootstrap κ) : Prop where
  running : s.running = false
  promised : s.promised = true ↔ st ≠ .setValue
  groupRunning : s.groupRunning = true ↔ ∀ i, st ≠ .join i
  bossLoop : s.bossLoop.isSome = true
  bossStopped : st = .joinBoss → s.bossLoop = some true
  bossThread : st = .stopAll ∨ (∃ i, st = .join i) → s.bossThread = none
  quit : (∃ i, st = .join i) → ∀ w ∈ s.threads, w.quit = true
  /-- A calling worker is among the threads that are still to be joined. -/
  threads : ∃ joined rest, s.threads = joined ++ rest ∧ joined.length = st.place ∧
    s.threads ≠ [] ∧ (∀ w ∈ rest, w.joinable = true) ∧
      ∀ id, t = .worker id → ∃ w ∈ rest, w.id = id
  broken : s.broken = false
  call : s.calls t = some st
  others : ∀ t', t' ≠ t → s.calls t' = none

structure Down (s : ServerBootstrap κ) : Prop where
  running : s.running = false
  promised : s.promised = true
  groupRunning : s.groupRunning = false
  stopped : s.Stopped
  idle : s.Idle

/-- Every further stop fails on the promise, before it comes to the threads. -/
structure Marred (s : ServerBootstrap κ) : Prop where
  promised : s.promised = true
  threads : s.threads ≠ []
  call : ∀ t st, s.calls t = some st → st = .setValue ∧ s.running = false ∧ s.broken = false ∧
    ∀ t', t' ≠ t → s.calls t' = none

theorem Marred.not_stopped {s : ServerBootstrap κ} (h : Marred s) : ¬s.Stopped :=
  fun hs => h.threads hs.threads

theorem Idle.marred {s : ServerBootstrap κ} (h : s.Idle) (hpromised : s.promised = true)
    (hthreads : s.threads ≠ []) : Marred s where
  promised := hpromised
  threads := hthreads
  call t st hcall := by
    rw [h t] at hcall
    cases hcall

/-! ### Starting -/

section start

variable (s : ServerBootstrap κ)

@[simp] theorem startWorkers_running : s.startWorkers.running = s.running := by
  unfold startWorkers
  split <;> rfl

@[simp] theorem startWorkers_promised : s.startWorkers.promised = s.promised := by
  unfold startWorkers
  split <;> rfl

@[simp] theorem startWorkers_calls : s.startWorkers.calls = s.calls := by
  unfold startWorkers
  split <;> rfl

@[simp] theorem startWorkers_bossThread : s.startWorkers.bossThread = s.bossThread := by
  unfold startWorkers
  split <;> rfl

@[simp] theorem startWorkers_broken : s.startWorkers.broken = s.broken := by
  unfold startWorkers
  split <;> rfl

@[simp] theorem startWorkers_groupRunning : s.startWorkers.groupRunning = true := by
  unfold startWorkers
  split
  · assumption
  · rfl

theorem setThreadCount_pos (numThreads : ℕ) : 0 < setThreadCount numThreads := by
  unfold setThreadCount
  split <;> omega

/-- There is a thread at least. -/
theorem startWorkers_threads (h : s.groupRunning = false ∨ s.threads ≠ []) :
    s.startWorkers.threads ≠ [] := by
  unfold startWorkers
  split
  next hrunning => simpa [hrunning] using h
  next =>
    have hpos := setThreadCount_pos s.workerThreads
    simp only [ne_eq, List.append_eq_nil_iff, List.map_eq_nil_iff, List.range_eq_nil]
    omega

theorem start_threads (listens : Bool) :
    (s.start listens).threads =
      if s.running then s.threads else { s with running := true }.startWorkers.threads := by
  unfold start
  split
  · rfl
  · dsimp only
    split <;> rfl

@[simp] theorem start_promised (listens : Bool) : (s.start listens).promised = s.promised := by
  unfold start
  split
  · rfl
  · dsimp only
    split <;> simp

@[simp] theorem start_calls (listens : Bool) : (s.start listens).calls = s.calls := by
  unfold start
  split
  · rfl
  · dsimp only
    split <;> simp

end start

/-! ### Steps -/

variable {s : ServerBootstrap κ} {t : Caller κ} {st : ShutdownStep}

theorem exitBoss_of_none (h : s.bossThread = none) (pollFails : Bool) :
    s.exitBoss pollFails = s := by
  cases s
  simp_all [exitBoss]

/-- What the exit of the boss leaves alone. -/
theorem exitBoss_eq (pollFails : Bool) : ∃ thread : Option Bool,
    (s.bossThread = none → thread = none) ∧
      s.exitBoss pollFails = { s with bossThread := thread } := by
  by_cases h : s.bossLoop = some true ∨ pollFails
  · exact ⟨s.bossThread.map fun _ => true, fun hnone => by simp [hnone], by simp [exitBoss, h]⟩
  · exact ⟨s.bossThread, fun hnone => hnone, by simp [exitBoss, h]⟩

theorem exit_of_nil (h : s.threads = []) (id : ℕ) (pollFails : Bool) :
    s.exit id pollFails = s := by
  cases s
  simp_all [exit]

/-- What the exit of a worker leaves alone. -/
theorem exit_eq (id : ℕ) (pollFails : Bool) : ∃ f : WorkerThread → WorkerThread,
    (∀ w, (f w).id = w.id ∧ (f w).joinable = w.joinable ∧ (f w).quit = w.quit) ∧
      s.exit id pollFails = { s with threads := s.threads.map f } := by
  by_cases h : s.calls (.worker id) = none
  · refine ⟨WorkerThread.exit id pollFails, fun w => ?_, by simp [exit, h]⟩
    unfold WorkerThread.exit
    split <;> exact ⟨rfl, rfl, rfl⟩
  · exact ⟨fun w => w, fun w => ⟨rfl, rfl, rfl⟩, by simp [exit, h]⟩

theorem Fresh.start (h : Fresh s) (listens : Bool) : Up (s.start listens) := by
  have hboss := h.stopped.bossThread
  have hthreads : { s with running := true }.startWorkers.threads ≠ [] :=
    startWorkers_threads _ (.inl h.groupRunning)
  have hjoinable : ∀ w ∈ { s with running := true }.startWorkers.threads, w.joinable = true := by
    simp [startWorkers, h.groupRunning, h.stopped.threads]
  have hstart : s.start listens =
      { { s with running := true }.startWorkers with
        bossLoop := some false
        bossThread := if listens then some false else none } := by
    simp [ServerBootstrap.start, h.running, hboss]
  rw [hstart]
  exact ⟨by simp, by simp [h.promised], by simp, hthreads, hjoinable, rfl,
    by simp [h.stopped.broken], fun t => by simp [h.idle t]⟩

variable [DecidableEq κ]

theorem step_of_broken (h : s.broken = true) (op : Op κ) : s.step op = s := by
  simp [step, h]

theorem step_eq_act (h : s.broken = false) (op : Op κ) : s.step op = s.act op := by
  simp [step, h]

theorem next_of_none (h : s.calls t = none) : s.next t = s := by
  simp [next, h]

theorem shutdownGracefully_of_not_running (h : s.running = false) :
    s.shutdownGracefully t = s := by
  simp [shutdownGracefully, h]

theorem setCall_idle (hothers : ∀ t', t' ≠ t → s.calls t' = none) :
    (s.setCall t none).Idle := by
  intro t'
  by_cases ht : t' = t
  · simp [setCall, ht]
  · simp [setCall, ht, hothers t' ht]

/-! ### Servers that are marred -/

theorem Marred.step (h : Marred s) {op : Op κ} (hop : s.Allowed op) : Marred (s.step op) := by
  by_cases hbroken : s.broken = true
  · rwa [step_of_broken hbroken]
  rw [Bool.not_eq_true] at hbroken
  rw [step_eq_act hbroken]
  cases op with
  | start listens =>
    change Marred (s.start listens)
    refine Idle.marred (fun t => ?_) (by simpa using h.promised) ?_
    · rw [start_calls]
      exact hop t
    · rw [start_threads]
      split
      · exact h.threads
      · exact startWorkers_threads _ (.inr h.threads)
  | shutdownGracefully t =>
    change Marred (s.shutdownGracefully t)
    by_cases hrunning : s.running = true
    · have hidle : s.Idle := fun t => by
        cases hcall : s.calls t with
        | none => rfl
        | some st => simp [(h.call t st hcall).2.1] at hrunning
      refine ⟨by simp [shutdownGracefully, hrunning, setCall, h.promised],
        by simp [shutdownGracefully, hrunning, setCall, h.threads], fun t' st hcall => ?_⟩
      simp only [shutdownGracefully, hrunning, if_true, setCall, Function.update_apply,
        hidle _] at hcall ⊢
      split at hcall
      next ht =>
        subst ht
        exact ⟨(Option.some.inj hcall).symm, trivial, hbroken, fun t' ht' => if_neg ht'⟩
      next => cases hcall
    · rwa [shutdownGracefully_of_not_running (by simpa using hrunning)]
  | next t =>
    change Marred (s.next t)
    cases hcall : s.calls t with
    | none => rwa [next_of_none hcall]
    | some st =>
      obtain ⟨rfl, -, -, hothers⟩ := h.call t st hcall
      have hnext : s.next t = s.setCall t none := by simp [next, hcall, h.promised]
      rw [hnext]
      exact (setCall_idle hothers).marred h.promised h.threads
  | exitBoss pollFails =>
    obtain ⟨thread, -, heq⟩ := exitBoss_eq (s := s) pollFails
    change Marred (s.exitBoss pollFails)
    rw [heq]
    exact ⟨h.promised, h.threads, h.call⟩
  | exit id pollFails =>
    obtain ⟨f, -, heq⟩ := exit_eq (s := s) id pollFails
    change Marred (s.exit id pollFails)
    rw [heq]
    exact ⟨h.promised, by simpa using h.threads, h.call⟩

/-! ### Servers that are new, up, or down -/

theorem Fresh.step (h : Fresh s) {op : Op κ} (hop : ∀ listens, op ≠ .start listens) :
    s.step op = s := by
  rw [step_eq_act h.stopped.broken]
  cases op with
  | start listens => exact absurd rfl (hop listens)
  | shutdownGracefully t => exact shutdownGracefully_of_not_running h.running
  | next t => exact next_of_none (h.idle t)
  | exitBoss pollFails => exact exitBoss_of_none h.stopped.bossThread pollFails
  | exit id pollFails => exact exit_of_nil h.stopped.threads id pollFails

theorem Up.start (h : Up s) (listens : Bool) : s.step (.start listens) = s := by
  rw [step_eq_act h.broken]
  change s.start listens = s
  simp [ServerBootstrap.start, h.running]

theorem Up.shutdownGracefully (h : Up s) (hcaller : s.Allowed (.shutdownGracefully t)) :
    Stopping t .setValue (s.step (.shutdownGracefully t)) := by
  have hcall : s.step (.shutdownGracefully t) =
      { s with running := false, calls := Function.update s.calls t (some .setValue) } := by
    rw [step_eq_act h.broken]
    simp [act, ServerBootstrap.shutdownGracefully, h.running, setCall]
  rw [hcall]
  exact
    { running := rfl
      promised := by simp [h.promised]
      groupRunning := by simp [h.groupRunning]
      bossLoop := h.bossLoop
      bossStopped := by simp
      bossThread := by simp
      quit := by simp
      threads := ⟨[], s.threads, rfl, rfl, h.threads, h.joinable, fun id ht => by
        obtain ⟨w, hw, hid, -⟩ := hcaller.2 id ht
        exact ⟨w, hw, hid⟩⟩
      broken := h.broken
      call := by simp
      others := fun t' ht' => by simp [ht', h.idle t'] }

theorem Up.step (h : Up s) {op : Op κ} (hop : ∀ t, op ≠ .shutdownGracefully t) :
    Up (s.step op) := by
  cases op with
  | start listens => rwa [h.start]
  | shutdownGracefully t => exact absurd rfl (hop t)
  | next t =>
    rw [step_eq_act h.broken]
    change Up (s.next t)
    rwa [next_of_none (h.idle t)]
  | exitBoss pollFails =>
    obtain ⟨thread, -, heq⟩ := exitBoss_eq (s := s) pollFails
    rw [step_eq_act h.broken]
    change Up (s.exitBoss pollFails)
    rw [heq]
    exact ⟨h.running, h.promised, h.groupRunning, h.threads, h.joinable, h.bossLoop, h.broken,
      h.idle⟩
  | exit id pollFails =>
    obtain ⟨f, hf, heq⟩ := exit_eq (s := s) id pollFails
    rw [step_eq_act h.broken]
    change Up (s.exit id pollFails)
    rw [heq]
    refine ⟨h.running, h.promised, h.groupRunning, by simpa using h.threads, fun w hw => ?_,
      h.bossLoop, h.broken, h.idle⟩
    obtain ⟨v, hv, rfl⟩ := List.mem_map.mp hw
    rw [(hf v).2.1]
    exact h.joinable v hv

theorem Down.step (h : Down s) {op : Op κ} (hop : ∀ listens, op ≠ .start listens) :
    s.step op = s := by
  rw [step_eq_act h.stopped.broken]
  cases op with
  | start listens => exact absurd rfl (hop listens)
  | shutdownGracefully t => exact shutdownGracefully_of_not_running h.running
  | next t => exact next_of_none (h.idle t)
  | exitBoss pollFails => exact exitBoss_of_none h.stopped.bossThread pollFails
  | exit id pollFails => exact exit_of_nil h.stopped.threads id pollFails

/-- The promise was kept already. -/
theorem Down.start (h : Down s) (listens : Bool) : Marred (s.step (.start listens)) := by
  rw [step_eq_act h.stopped.broken]
  change Marred (s.start listens)
  refine Idle.marred (fun t => ?_) (by simpa using h.promised) ?_
  · rw [start_calls]
    exact h.idle t
  · rw [start_threads, h.running]
    exact startWorkers_threads _ (.inl h.groupRunning)

/-! ### Servers that are being stopped -/

/-- What is to be done yet. -/
def rank (s : ServerBootstrap κ) : ShutdownStep → ℕ
  | .setValue => s.threads.length + 5
  | .stopBoss => s.threads.length + 4
  | .joinBoss => s.threads.length + 3
  | .stopAll => s.threads.length + 2
  | .join i => s.threads.length + 1 - i

/-- How a call goes on: it has less to do, has stopped the server, or has failed. -/
def Advances (t : Caller κ) (s : ServerBootstrap κ) (st : ShutdownStep)
    (s' : ServerBootstrap κ) : Prop :=
  (∃ st', Stopping t st' s' ∧ rank s' st' < rank s st) ∨
    Down s' ∧ (∀ id, t ≠ .worker id) ∨ Marred s' ∧ s'.Idle ∧ ∃ id, t = .worker id

/-- The call waits for a thread. -/
def Waits (t : Caller κ) (s : ServerBootstrap κ) : ShutdownStep → Prop
  | .joinBoss => s.bossThread = some false
  | .join i => ∃ w, s.threads[i]? = some w ∧ t ≠ .worker w.id ∧ w.exited = false
  | _ => False

theorem Stopping.next_of_waits (h : Stopping t st s) (hwaits : Waits t s st) : s.next t = s := by
  cases st with
  | joinBoss =>
    have hboss : s.bossThread = some false := hwaits
    simp [next, h.call, hboss]
  | join i =>
    obtain ⟨w, hw, hother, hexited⟩ := hwaits
    obtain ⟨joined, rest, hsplit, hlength, -, hjoinable, -⟩ := h.threads
    have hrest : w ∈ rest := by
      rw [hsplit, List.getElem?_append_right (by rw [hlength]; rfl)] at hw
      exact List.mem_of_getElem? hw
    simp [next, h.call, join, hw, hjoinable w hrest, hother, hexited]
  | _ => exact hwaits.elim

theorem Stopping.next_setValue (h : Stopping t .setValue s) :
    Stopping t .stopBoss (s.next t) ∧ (s.next t).threads = s.threads := by
  have hpromised : s.promised = false := by simpa using h.promised
  have hnext : s.next t =
      { s with promised := true, calls := Function.update s.calls t (some .stopBoss) } := by
    simp [next, h.call, hpromised, setCall]
  rw [hnext]
  exact ⟨{ h with
    promised := by simp
    groupRunning := by simpa using h.groupRunning
    bossStopped := by simp
    bossThread := by simp
    quit := by simp
    call := by simp
    others := fun t' ht' => by simp [ht', h.others t' ht'] }, rfl⟩

theorem Stopping.next_stopBoss (h : Stopping t .stopBoss s) :
    Stopping t .joinBoss (s.next t) ∧ (s.next t).threads = s.threads := by
  obtain ⟨quit, hquit⟩ := Option.isSome_iff_exists.mp h.bossLoop
  have hnext : s.next t =
      { s with bossLoop := some true, calls := Function.update s.calls t (some .joinBoss) } := by
    simp [next, h.call, hquit, setCall]
  rw [hnext]
  exact ⟨{ h with
    promised := by simpa using h.promised
    groupRunning := by simpa using h.groupRunning
    bossLoop := rfl
    bossStopped := fun _ => rfl
    bossThread := by simp
    quit := by simp
    call := by simp
    others := fun t' ht' => by simp [ht', h.others t' ht'] }, rfl⟩

theorem Stopping.next_joinBoss (h : Stopping t .joinBoss s) (hboss : s.bossThread ≠ some false) :
    Stopping t .stopAll (s.next t) ∧ (s.next t).threads = s.threads := by
  have hnext : s.next t =
      { s with bossThread := none, calls := Function.update s.calls t (some .stopAll) } := by
    match hthread : s.bossThread with
    | none => simp [next, h.call, hthread, setCall]
    | some true => simp [next, h.call, hthread, setCall]
    | some false => exact absurd hthread hboss
  rw [hnext]
  exact ⟨{ h with
    promised := by simpa using h.promised
    groupRunning := by simpa using h.groupRunning
    bossStopped := by simp
    bossThread := fun _ => rfl
    quit := by simp
    call := by simp
    others := fun t' ht' => by simp [ht', h.others t' ht'] }, rfl⟩

theorem Stopping.next_stopAll (h : Stopping t .stopAll s) :
    Stopping t (.join 0) (s.next t) ∧ (s.next t).threads.length = s.threads.length := by
  have hgroup : s.groupRunning = true := h.groupRunning.mpr (by simp)
  have hnext : s.next t =
      { s with
        groupRunning := false
        threads := s.threads.map WorkerThread.stop
        calls := Function.update s.calls t (some (.join 0)) } := by
    simp [next, h.call, hgroup, setCall]
  rw [hnext]
  obtain ⟨joined, rest, hsplit, hlength, hne, hjoinable, hcaller⟩ := h.threads
  obtain rfl := List.length_eq_zero_iff.mp hlength
  rw [List.nil_append] at hsplit
  refine ⟨{ h with
    promised := by simpa using h.promised
    groupRunning := by simp
    bossStopped := by simp
    bossThread := fun _ => h.bossThread (.inl rfl)
    quit := fun _ w hw => ?_
    threads := ⟨[], rest.map WorkerThread.stop, by rw [hsplit]; rfl, rfl, by simpa using hne,
      fun w hw => ?_, fun id ht => ?_⟩
    call := by simp
    others := fun t' ht' => by simp [ht', h.others t' ht'] }, List.length_map _⟩
  · obtain ⟨v, -, rfl⟩ := List.mem_map.mp hw
    rfl
  · obtain ⟨v, hv, rfl⟩ := List.mem_map.mp hw
    exact hjoinable v hv
  · obtain ⟨w, hw, hid⟩ := hcaller id ht
    exact ⟨w.stop, List.mem_map_of_mem hw, hid⟩

/-- At the next of the threads: the call joins it, or it is its own. -/
theorem Stopping.next_join {i : ℕ} (h : Stopping t (.join i) s) (hwaits : ¬Waits t s (.join i)) :
    Advances t s (.join i) (s.next t) := by
  obtain ⟨joined, rest, hsplit, hlength, hne, hjoinable, hcaller⟩ := h.threads
  have hnext : s.next t = s.join t i := by simp [next, h.call]
  have hget : s.threads[i]? = rest.head? := by
    rw [hsplit, List.getElem?_append_right (by rw [hlength]; rfl), hlength,
      List.head?_eq_getElem?]
    simp [ShutdownStep.place]
  have hpromised : s.promised = true := h.promised.mpr (by simp)
  rw [hnext]
  cases rest with
  | nil =>
    have hjoin : s.join t i =
        { s with threads := [], calls := Function.update s.calls t none } := by
      simp [ServerBootstrap.join, hget, setCall]
    refine .inr (.inl ⟨?_, fun id ht => ?_⟩)
    · rw [hjoin]
      have hgroup : s.groupRunning = false := by
        rw [Bool.eq_false_iff]
        exact fun hgroup => h.groupRunning.mp hgroup i rfl
      exact ⟨h.running, hpromised, hgroup, ⟨rfl, h.bossThread (.inr ⟨i, rfl⟩), h.broken⟩,
        setCall_idle h.others⟩
    · obtain ⟨w, hw, -⟩ := hcaller id ht
      cases hw
  | cons w rest =>
    have hw := hjoinable w List.mem_cons_self
    by_cases hself : t = .worker w.id
    · have hjoin : s.join t i = s.setCall t none := by
        simp [ServerBootstrap.join, hget, hw, hself]
      refine .inr (.inr ⟨?_, ?_, w.id, hself⟩)
      · rw [hjoin]
        exact (setCall_idle h.others).marred hpromised hne
      · rw [hjoin]
        exact setCall_idle h.others
    · have hexited : w.exited = true := by
        by_contra hexited
        exact hwaits ⟨w, hget, hself, by simpa using hexited⟩
      have hjoin : s.join t i =
          { s with
            threads := s.threads.set i { w with joinable := false }
            calls := Function.update s.calls t (some (.join (i + 1))) } := by
        simp [ServerBootstrap.join, hget, hw, hself, hexited, setCall]
      have hi : joined.length = i := hlength
      have hset : s.threads.set i { w with joinable := false } =
          (joined ++ [{ w with joinable := false }]) ++ rest := by
        rw [hsplit, List.set_append_right _ _ hi.le, hi, Nat.sub_self, List.set_cons_zero,
          List.append_assoc, List.singleton_append]
      refine .inl ⟨.join (i + 1), ?_, ?_⟩
      · rw [hjoin]
        exact
          { h with
            promised := by simpa using hpromised
            groupRunning := by simpa using h.groupRunning
            bossStopped := by simp
            bossThread := fun _ => h.bossThread (.inr ⟨i, rfl⟩)
            quit := fun _ v hv => by
              rcases List.mem_or_eq_of_mem_set hv with hv | rfl
              · exact h.quit ⟨i, rfl⟩ v hv
              · exact h.quit ⟨i, rfl⟩ w (List.mem_of_getElem? hget)
            threads := ⟨joined ++ [{ w with joinable := false }], rest, hset, by simp [hi,
              ShutdownStep.place], by simpa using hne,
              fun v hv => hjoinable v (List.mem_cons_of_mem _ hv), fun id ht => by
                obtain ⟨v, hv, hid⟩ := hcaller id ht
                rcases List.mem_cons.mp hv with rfl | hv
                · exact absurd (hid ▸ ht) hself
                · exact ⟨v, hv, hid⟩⟩
            call := by simp
            others := fun t' ht' => by simp [ht', h.others t' ht'] }
      · have hlt : i < s.threads.length := by
          rw [hsplit, List.length_append, List.length_cons, hi]
          omega
        rw [hjoin]
        simp only [rank, List.length_set]
        omega

/-- **A step of the call** that does not have to wait. -/
theorem Stopping.next (h : Stopping t st s) (hwaits : ¬Waits t s st) :
    Advances t s st (s.next t) := by
  cases st with
  | setValue =>
    obtain ⟨hnext, hthreads⟩ := h.next_setValue
    exact .inl ⟨_, hnext, by simp [rank, hthreads]⟩
  | stopBoss =>
    obtain ⟨hnext, hthreads⟩ := h.next_stopBoss
    exact .inl ⟨_, hnext, by simp [rank, hthreads]⟩
  | joinBoss =>
    obtain ⟨hnext, hthreads⟩ := h.next_joinBoss hwaits
    exact .inl ⟨_, hnext, by simp [rank, hthreads]⟩
  | stopAll =>
    obtain ⟨hnext, hlength⟩ := h.next_stopAll
    exact .inl ⟨_, hnext, by simp [rank, hlength]⟩
  | join i => exact h.next_join hwaits

omit [DecidableEq κ] in
theorem Stopping.exitBoss (h : Stopping t st s) (pollFails : Bool) :
    Stopping t st (s.exitBoss pollFails) := by
  obtain ⟨thread, hthread, heq⟩ := exitBoss_eq (s := s) pollFails
  rw [heq]
  exact { h with bossThread := fun hst => hthread (h.bossThread hst) }

omit [DecidableEq κ] in
theorem Stopping.exit (h : Stopping t st s) (id : ℕ) (pollFails : Bool) :
    Stopping t st (s.exit id pollFails) := by
  obtain ⟨f, hf, heq⟩ := exit_eq (s := s) id pollFails
  rw [heq]
  obtain ⟨joined, rest, hsplit, hlength, hne, hjoinable, hcaller⟩ := h.threads
  refine { h with
    quit := fun hst w hw => ?_
    threads := ⟨joined.map f, rest.map f, by simp [hsplit], by simpa using hlength,
      by simpa using hne, fun w hw => ?_, fun id ht => ?_⟩ }
  · obtain ⟨v, hv, rfl⟩ := List.mem_map.mp hw
    rw [(hf v).2.2]
    exact h.quit hst v hv
  · obtain ⟨v, hv, rfl⟩ := List.mem_map.mp hw
    rw [(hf v).2.1]
    exact hjoinable v hv
  · obtain ⟨w, hw, hid⟩ := hcaller id ht
    exact ⟨f w, List.mem_map_of_mem hw, (hf w).1.trans hid⟩

theorem Stopping.step (h : Stopping t st s) {op : Op κ} (hop : s.Allowed op) :
    (∀ listens, op ≠ .start listens) ∧ ((∃ st', Stopping t st' (s.step op)) ∨
      Down (s.step op) ∧ (∀ id, t ≠ .worker id) ∨
        Marred (s.step op) ∧ ∃ id, t = .worker id) := by
  rw [step_eq_act h.broken]
  cases op with
  | start listens =>
    have hcall := hop t
    rw [h.call] at hcall
    cases hcall
  | shutdownGracefully t' =>
    refine ⟨by simp, .inl ⟨st, ?_⟩⟩
    change Stopping t st (s.shutdownGracefully t')
    rwa [shutdownGracefully_of_not_running h.running]
  | next t' =>
    refine ⟨by simp, ?_⟩
    change (∃ st', Stopping t st' (s.next t')) ∨ _
    by_cases ht : t' = t
    · subst ht
      by_cases hwaits : Waits t' s st
      · rw [h.next_of_waits hwaits]
        exact .inl ⟨st, h⟩
      · rcases h.next hwaits with ⟨st', hst', -⟩ | hdown | ⟨hmarred, -, hworker⟩
        · exact .inl ⟨st', hst'⟩
        · exact .inr (.inl hdown)
        · exact .inr (.inr ⟨hmarred, hworker⟩)
    · rw [next_of_none (h.others t' ht)]
      exact .inl ⟨st, h⟩
  | exitBoss pollFails => exact ⟨by simp, .inl ⟨st, h.exitBoss pollFails⟩⟩
  | exit id pollFails => exact ⟨by simp, .inl ⟨st, h.exit id pollFails⟩⟩

end ServerBootstrap

end XNetty
