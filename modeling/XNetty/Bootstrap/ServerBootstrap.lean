import XNetty.Lib.Ledger

/-!
# Starting and stopping a server

`ServerBootstrap` starts the threads of the workers and of the boss, and stops them again.
`shutdownGracefully` may be called by any thread, also by a handler on the thread of a worker, and
a call waits for one thread after the other. Hence a call is taken in steps, between which other
threads go on.

## Main definitions

* `ServerBootstrap` — the members that starting and stopping work on, and the calls under way.
* `ServerBootstrap.start`, `shutdownGracefully`, `next` — a start, and a call with its steps.
* `ServerBootstrap.run` — what callers and threads do, in any order.
-/

namespace XNetty

/-- A loop of `EventLoopGroup` and the thread that runs it. -/
structure WorkerThread where
  id : ℕ
  quit : Bool := false
  exited : Bool := false
  joinable : Bool := true
deriving DecidableEq

/-- `EventLoop::stop` of its loop. -/
def WorkerThread.stop (w : WorkerThread) : WorkerThread := { w with quit := true }

/-- The thread with this number leaves its loop, if the loop has been stopped or its poll fails. -/
def WorkerThread.exit (id : ℕ) (pollFails : Bool) (w : WorkerThread) : WorkerThread :=
  if w.id = id ∧ (w.quit ∨ pollFails) then { w with exited := true } else w

/-- Who calls: a handler on the thread of a worker, or a thread that is not the server's. -/
inductive Caller (κ : Type*) where
  | worker (id : ℕ)
  | outside (thread : κ)
deriving DecidableEq

/-- What a call of `shutdownGracefully` does next; `join i` waits for the thread at place `i`. -/
inductive ShutdownStep where
  | setValue
  | stopBoss
  | joinBoss
  | stopAll
  | join (i : ℕ)
deriving DecidableEq

structure ServerBootstrap (κ : Type*) where
  workerThreads : ℕ
  running : Bool := false
  /-- `shutdownPromise_` has its value. -/
  promised : Bool := false
  /-- `running_` of the group of workers. -/
  groupRunning : Bool := false
  /-- `loops_` and `threads_` of the group. -/
  threads : List WorkerThread := []
  spawned : ℕ := 0
  /-- `quit_` of `bossLoop_`. -/
  bossLoop : Option Bool := none
  /-- Whether `bossThread_`, if there is one to join, has exited. -/
  bossThread : Option Bool := none
  calls : Caller κ → Option ShutdownStep := fun _ => none
  /-- The process has been terminated, or runs a loop that was destroyed. -/
  broken : Bool := false

namespace ServerBootstrap

variable {κ : Type*}

/-- `EventLoopGroup::setThreadCount`. -/
def setThreadCount (numThreads : ℕ) : ℕ := if numThreads > 0 then numThreads else 1

/-- `EventLoopGroup::start`. -/
def startWorkers (s : ServerBootstrap κ) : ServerBootstrap κ :=
  if s.groupRunning then s else
    { s with
      groupRunning := true
      threads := s.threads ++
        (List.range (setThreadCount s.workerThreads)).map fun i => { id := s.spawned + i }
      spawned := s.spawned + setThreadCount s.workerThreads }

/-- `ServerBootstrap::start`, where the boss can listen or not. -/
def start (listens : Bool) (s : ServerBootstrap κ) : ServerBootstrap κ :=
  if s.running then s else
    let s := { s with running := true }.startWorkers
    match s.bossThread with
    | none => { s with bossLoop := some false, bossThread := if listens then some false else none }
    -- the thread still runs the loop that is replaced
    | some false => { s with broken := true }
    -- a thread that was not joined is assigned to
    | some true => { s with bossLoop := some false, broken := listens }

variable [DecidableEq κ]

/-- The call of `t` has come to `step`, or to its end. -/
def setCall (s : ServerBootstrap κ) (t : Caller κ) (step : Option ShutdownStep) :
    ServerBootstrap κ :=
  { s with calls := Function.update s.calls t step }

/-- A call of `shutdownGracefully` begins, and ends at once where nothing is running. -/
def shutdownGracefully (t : Caller κ) (s : ServerBootstrap κ) : ServerBootstrap κ :=
  if s.running then { s with running := false }.setCall t (some .setValue) else s

/-- The loop of `EventLoopGroup::stopAll` over the threads, at place `i`. -/
def join (t : Caller κ) (i : ℕ) (s : ServerBootstrap κ) : ServerBootstrap κ :=
  match s.threads[i]? with
  | none => { s with threads := [] }.setCall t none
  | some w =>
    if !w.joinable then s.setCall t (some (.join (i + 1)))
    -- a thread that joins itself gets an exception
    else if t = .worker w.id then s.setCall t none
    else if w.exited then
      { s with threads := s.threads.set i { w with joinable := false } }.setCall t
        (some (.join (i + 1)))
    else s

/-- The call of `t` goes on, unless it has to wait. -/
def next (t : Caller κ) (s : ServerBootstrap κ) : ServerBootstrap κ :=
  match s.calls t with
  | none => s
  -- a promise that has its value throws
  | some .setValue =>
    if s.promised then s.setCall t none
    else { s with promised := true }.setCall t (some .stopBoss)
  | some .stopBoss =>
    { s with bossLoop := s.bossLoop.map fun _ => true }.setCall t (some .joinBoss)
  | some .joinBoss =>
    match s.bossThread with
    | none => s.setCall t (some .stopAll)
    | some true => { s with bossThread := none }.setCall t (some .stopAll)
    | some false => s
  | some .stopAll =>
    if s.groupRunning then
      { s with
        groupRunning := false
        threads := s.threads.map WorkerThread.stop }.setCall t (some (.join 0))
    else s.setCall t none
  | some (.join i) => s.join t i

/-- The thread of the boss leaves its loop, if the loop has been stopped or its poll fails. -/
def exitBoss (pollFails : Bool) (s : ServerBootstrap κ) : ServerBootstrap κ :=
  if s.bossLoop = some true ∨ pollFails then
    { s with bossThread := s.bossThread.map fun _ => true }
  else s

/-- The thread of a worker leaves its loop, unless a handler on it is still in a call. -/
def exit (id : ℕ) (pollFails : Bool) (s : ServerBootstrap κ) : ServerBootstrap κ :=
  if s.calls (.worker id) = none then
    { s with threads := s.threads.map (WorkerThread.exit id pollFails) }
  else s

/-! ### Runs -/

inductive Op (κ : Type*) where
  | start (listens : Bool)
  | shutdownGracefully (t : Caller κ)
  | next (t : Caller κ)
  | exitBoss (pollFails : Bool)
  | exit (id : ℕ) (pollFails : Bool)

def act (s : ServerBootstrap κ) : Op κ → ServerBootstrap κ
  | .start listens => s.start listens
  | .shutdownGracefully t => s.shutdownGracefully t
  | .next t => s.next t
  | .exitBoss pollFails => s.exitBoss pollFails
  | .exit id pollFails => s.exit id pollFails

def step (s : ServerBootstrap κ) (op : Op κ) : ServerBootstrap κ :=
  if s.broken then s else s.act op

def run (s : ServerBootstrap κ) (ops : List (Op κ)) : ServerBootstrap κ := ops.foldl step s

/-- The server is not started during a call, and a thread that calls is there and not in a call
already. -/
def Allowed (s : ServerBootstrap κ) : Op κ → Prop
  | .start _ => ∀ t, s.calls t = none
  | .shutdownGracefully t => s.calls t = none ∧
      ∀ id, t = .worker id → ∃ w ∈ s.threads, w.id = id ∧ w.exited = false
  | _ => True

/-- Nothing is left to join: the server can be destroyed. -/
structure Stopped (s : ServerBootstrap κ) : Prop where
  threads : s.threads = []
  bossThread : s.bossThread = none
  broken : s.broken = false

end ServerBootstrap

end XNetty
