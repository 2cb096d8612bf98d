import XNetty.Event.PendingFunctors
import XNetty.WebSocket.TopicTree

/-!
# On which thread functors run

`EventLoop::runInLoop` runs its functor at once when the caller is the loop's thread, and the
loop takes the thread that constructed it for its own. `EventLoopGroup::start` constructs its
workers in the thread that calls it and runs each of them in a new one.

## Main definitions

* `WorkerThreads` — the thread a worker knows and the thread that runs it.
* `LoopCall` — the calls that hand functors to workers, and what the workers do.
* `Confinement` — the queues of the workers, and what was executed where.
-/

namespace XNetty.Event

open WebSocket (TopicTree SubscriberPtr)

/-- A worker of an `EventLoopGroup`. -/
structure WorkerThreads (τ : Type*) where
  /-- `threadId_`, recorded by `EventLoop::EventLoop`. -/
  threadId : τ
  /-- The thread that calls `loop()`. -/
  thread : τ
  /-- A `std::thread` is a thread of its own. -/
  fresh : thread ≠ threadId

/-- `EventLoopGroup::start` in thread `starter`, where `spawn i` is the `i`-th `std::thread`. -/
def startWorkers {τ : Type*} (starter : τ) (spawn : ℕ → τ) (fresh : ∀ i, spawn i ≠ starter)
    (numThreads : ℕ) : Fin numThreads → WorkerThreads τ :=
  fun i => { threadId := starter, thread := spawn i, fresh := fresh i }

/-- What workers are given to execute: a functor of the caller, or the one that the callback of
`sTopicTree` makes. -/
inductive LoopFunctor (α : Type*) where
  | callback (cb : α)
  | fireWrite (subscriber : SubscriberPtr) (payload : Bytes)

/-- What the callback of `sTopicTree` looks at in a subscriber. -/
structure SubscriberRefs (ω : Type*) where
  /-- `s->worker.lock()`. -/
  worker : Option ω
  /-- `s->user` is set, and so is the `ctx()` behind it. -/
  user : Bool
  ctx : Bool

/-- The worker whose `runInLoop` the callback calls. -/
def SubscriberRefs.reached {ω : Type*} (refs : SubscriberRefs ω) : Option ω :=
  if refs.user && refs.ctx then refs.worker else none

/-- The tree and its subscribers, as a call finds them. -/
structure Audience (ω : Type*) where
  tree : TopicTree
  refs : SubscriberPtr → SubscriberRefs ω

/-- `sTopicTree.publish` with its callback: the functors handed to `runInLoop`, in order. -/
def Audience.publish {ω : Type*} (audience : Audience ω) (α : Type*) (sender : Option SubscriberPtr)
    (topic message : Bytes) : List (ω × LoopFunctor α) :=
  (audience.tree.publish sender topic message).1.filterMap fun delivery =>
    (audience.refs delivery.subscriber).reached.map fun worker =>
      (worker, .fireWrite delivery.subscriber delivery.message)

/-- A call in some thread, or a step of the thread that runs a worker. -/
inductive LoopCall (τ ω α : Type*) where
  | runInLoop (thread : τ) (worker : ω) (cb : α)
  | queueInLoop (thread : τ) (worker : ω) (cb : α)
  /-- `Context::runInLoop`, with the worker of the connection if that is alive. -/
  | contextRunInLoop (thread : τ) (loop : Option ω) (cb : α)
  /-- `WebSocket::publish`, with the subscriber of the socket if it has one. -/
  | publish (thread : τ) (audience : Audience ω) (sub : Option SubscriberPtr)
      (topic message : Bytes)
  | broadcast (thread : τ) (audience : Audience ω) (topic message : Bytes)
  /-- `doPendingFunctors` takes what is queued. -/
  | take (worker : ω)
  /-- `doPendingFunctors` comes to the next functor it took. -/
  | invoke (worker : ω)

namespace LoopCall

variable {τ ω α : Type*}

/-- The calls of `EventLoop::runInLoop` that a call makes, and the thread that makes them. -/
def runsInLoop : LoopCall τ ω α → List (τ × ω × LoopFunctor α)
  | .runInLoop thread worker cb => [(thread, worker, .callback cb)]
  | .contextRunInLoop thread loop cb =>
    loop.toList.map fun worker => (thread, worker, .callback cb)
  | .publish thread audience sub topic message =>
    match sub with
    | none => []
    | some s => (audience.publish α (some s) topic message).map (thread, ·)
  | .broadcast thread audience topic message =>
    (audience.publish α none topic message).map (thread, ·)
  | .queueInLoop _ _ _ | .take _ | .invoke _ => []

/-- No worker is reached by the thread that constructed it. -/
def Apart (workers : ω → WorkerThreads τ) (call : LoopCall τ ω α) : Prop :=
  ∀ r ∈ call.runsInLoop, (workers r.2.1).threadId ≠ r.1

end LoopCall

/-- The queue of a worker, and what is left of the functors it took. -/
structure WorkerQueue (α : Type*) where
  functors : PendingFunctors (LoopFunctor α)
  taken : List (Option (LoopFunctor α)) := []

structure Execution (τ ω α : Type*) where
  thread : τ
  worker : ω
  functor : LoopFunctor α

structure Confinement (τ ω α : Type*) where
  queues : ω → WorkerQueue α
  executed : List (Execution τ ω α) := []

namespace Confinement

variable {τ ω α : Type*} [DecidableEq τ] [DecidableEq ω] (workers : ω → WorkerThreads τ)

def setQueue (s : Confinement τ ω α) (worker : ω) (queue : WorkerQueue α) : Confinement τ ω α :=
  { s with queues := Function.update s.queues worker queue }

def execute (s : Confinement τ ω α) (thread : τ) (worker : ω) (functor : LoopFunctor α) :
    Confinement τ ω α :=
  { s with executed := s.executed ++ [{ thread, worker, functor }] }

/-- `EventLoop::queueInLoop`. -/
def queueInLoop (s : Confinement τ ω α) (worker : ω) (functor : LoopFunctor α) :
    Confinement τ ω α :=
  let queue := s.queues worker
  s.setQueue worker { queue with functors := queue.functors.queueInLoop functor }

/-- `EventLoop::runInLoop` in a thread. -/
def runInLoop (s : Confinement τ ω α) (r : τ × ω × LoopFunctor α) : Confinement τ ω α :=
  -- `isInLoopThread()`
  if (workers r.2.1).threadId = r.1 then s.execute r.1 r.2.1 r.2.2
  else s.queueInLoop r.2.1 r.2.2

/-- `EventLoop::doPendingFunctors`, up to the loop over the functors. -/
def take (s : Confinement τ ω α) (worker : ω) : Confinement τ ω α :=
  let queue := s.queues worker
  let popped := queue.functors.lfBuffer.popAll
  s.setQueue worker
    { functors := { queue.functors with lfBuffer := popped.1, pendingFunctors := [] }
      taken := popped.2 ++ queue.functors.pendingFunctors }

/-- One turn of `for (auto &f : functors) f();`. -/
def invoke (s : Confinement τ ω α) (worker : ω) : Confinement τ ω α :=
  let queue := s.queues worker
  match queue.taken with
  | [] => s
  -- an empty functor throws and ends the round
  | none :: _ => s.setQueue worker { queue with taken := [] }
  | some functor :: taken =>
    (s.execute (workers worker).thread worker functor).setQueue worker { queue with taken }

def step (s : Confinement τ ω α) (call : LoopCall τ ω α) : Confinement τ ω α :=
  match call with
  | .queueInLoop _ worker cb => s.queueInLoop worker (.callback cb)
  | .take worker => s.take worker
  | .invoke worker => s.invoke workers worker
  | _ => call.runsInLoop.foldl (runInLoop workers) s

def run (s : Confinement τ ω α) (calls : List (LoopCall τ ω α)) : Confinement τ ω α :=
  calls.foldl (step workers) s

/-- Workers with the given rings, before anything is queued. -/
def start (τ : Type*) {ω α : Type*} (rings : ω → SpscQueue (LoopFunctor α)) :
    Confinement τ ω α :=
  { queues := fun worker => { functors := .new (rings worker) } }

/-- Every functor was executed on the thread that runs its worker. -/
def Confined (s : Confinement τ ω α) : Prop :=
  ∀ e ∈ s.executed, e.thread = (workers e.worker).thread

variable {workers} {s : Confinement τ ω α}

omit [DecidableEq τ] [DecidableEq ω] in
theorem confined_execute {thread : τ} {worker : ω} {functor : LoopFunctor α} :
    (s.execute thread worker functor).Confined workers ↔
      s.Confined workers ∧ thread = (workers worker).thread := by
  simp [Confined, execute, or_imp, forall_and]

/-- **A functor is run inline exactly in the thread that constructed the loop**, which is not
the thread that runs it. -/
theorem confined_runInLoop (r : τ × ω × LoopFunctor α) :
    (s.runInLoop workers r).Confined workers ↔
      s.Confined workers ∧ (workers r.2.1).threadId ≠ r.1 := by
  unfold runInLoop
  split
  · rename_i hinline
    have hfresh := (workers r.2.1).fresh
    rw [confined_execute, ← hinline]
    constructor
    · rintro ⟨-, hthread⟩
      exact absurd hthread.symm hfresh
    · rintro ⟨-, hthread⟩
      exact absurd rfl hthread
  · rename_i hqueued
    exact (and_iff_left hqueued).symm

theorem confined_foldl_runInLoop (rs : List (τ × ω × LoopFunctor α)) :
    (rs.foldl (runInLoop workers) s).Confined workers ↔
      s.Confined workers ∧ ∀ r ∈ rs, (workers r.2.1).threadId ≠ r.1 := by
  induction rs generalizing s with
  | nil => simp
  | cons r rs ih => rw [List.foldl_cons, ih, confined_runInLoop, List.forall_mem_cons, and_assoc]

omit [DecidableEq τ] in
/-- What a worker executes by itself it executes on its thread. -/
theorem confined_invoke (worker : ω) :
    (s.invoke workers worker).Confined workers ↔ s.Confined workers := by
  unfold invoke
  dsimp only
  split
  · rfl
  · rfl
  · exact confined_execute.trans (and_iff_left rfl)

theorem confined_step (call : LoopCall τ ω α) :
    (s.step workers call).Confined workers ↔ s.Confined workers ∧ call.Apart workers := by
  cases call with
  | queueInLoop thread worker cb =>
    exact (and_iff_left fun r hr => absurd hr List.not_mem_nil).symm
  | take worker => exact (and_iff_left fun r hr => absurd hr List.not_mem_nil).symm
  | invoke worker =>
    rw [step, confined_invoke]
    exact (and_iff_left fun r hr => absurd hr List.not_mem_nil).symm
  | runInLoop thread worker cb => exact confined_foldl_runInLoop _
  | contextRunInLoop thread loop cb => exact confined_foldl_runInLoop _
  | publish thread audience sub topic message => exact confined_foldl_runInLoop _
  | broadcast thread audience topic message => exact confined_foldl_runInLoop _

/-- **When functors stay on their thread.** In every interleaving of the threads, all functors
are executed on the threads that run their workers exactly when no worker is reached through
`runInLoop` by the thread that constructed it. -/
theorem run_confined_iff (workers : ω → WorkerThreads τ) (rings : ω → SpscQueue (LoopFunctor α))
    (calls : List (LoopCall τ ω α)) :
    ((start τ rings).run workers calls).Confined workers ↔
      ∀ call ∈ calls, call.Apart workers := by
  induction calls using List.reverseRecOn with
  | nil => simp [run, start, Confined]
  | append_singleton calls call ih =>
    rw [run, List.foldl_append, List.foldl_cons, List.foldl_nil, confined_step, ← run, ih,
      List.forall_mem_append, List.forall_mem_singleton]

/-- Subscriber `5` of worker `0` on one topic. -/
def oneSubscriber : Audience (Fin 1) where
  tree := ((TopicTree.createSubscriber {} 5).1.subscribe 5 [116] 9).1
  refs := fun _ => { worker := some 0, user := true, ctx := true }

/-- The thread that called `start` broadcasts and writes to the subscriber's connection itself. -/
theorem not_confined_broadcast :
    let workers := startWorkers 0 (· + 1) (fun i => Nat.succ_ne_zero i) 1
    let s := (start ℕ (α := Unit) fun _ => .smallest _).run workers
      [.broadcast 0 oneSubscriber [116] [104, 105]]
    s.executed = [{ thread := 0, worker := 0, functor := .fireWrite 5 [104, 105] }] ∧
      (workers 0).thread = 1 ∧ ¬ s.Confined workers := by
  refine ⟨rfl, rfl, ?_⟩
  intro hconfined
  exact absurd (hconfined _ (List.mem_singleton.mpr rfl)) (by decide)

end Confinement

end XNetty.Event
