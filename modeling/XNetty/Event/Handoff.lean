import Mathlib.Data.List.ReduceOption
import XNetty.Event.FunctorExceptions
import XNetty.Event.LoopGroup
import XNetty.Lib.Ledger

/-!
# From the boss to the workers

The boss accepts connections and hands each to a worker: it chooses one by the connections that
the workers count at that moment, and queues `setupConnection` in its loop. The worker counts
the connection from the end of its set-up on, until `removeConn` gives it up. What the boss and
the workers do is interleaved in any way.

## Main definitions

* `Handoff.Worker` — the functors queued in a worker, and its connections.
* `Handoff.Server` — the workers of a group, with the connections the boss has accepted.
* `Handoff.run` — accepting, rounds of functors and closings, in any order.
* `Handoff.run_placed_iff` — the runs that lose no connection.
* `Handoff.run_load_le` — how far the load of one worker gets ahead of the others.
-/

namespace XNetty.Event.Handoff

/-- What is queued in a worker: the set-up of a connection, or a functor from elsewhere. -/
inductive Task where
  | setupConnection (connfd : ℕ)
  | other (id : ℕ)
  deriving DecidableEq

def Task.connfd : Task → Option ℕ
  | .setupConnection connfd => some connfd
  | .other _ => none

/-! ### A worker -/

structure Worker where
  loop : FunctorLoop Task
  /-- The descriptors of `connections_`. -/
  connections : List ℕ := []
  /-- The descriptors of the connections that `removeConn` gave up. -/
  finished : List ℕ := []

namespace Worker

variable (throws : Task → Bool)

/-- `WorkerEventLoop::connectionCount`. -/
def connectionCount (w : Worker) : ℕ := w.connections.length

def queueInLoop (w : Worker) (task : Task) : Worker :=
  { w with loop := w.loop.step throws (.queueInLoop task) }

/-- The set-ups that got to their end, where `addConnection` stands. -/
def established (called : List Task) : List ℕ :=
  called.filterMap fun task => if throws task then none else task.connfd

/-- The functors of the next round. -/
def round (w : Worker) : List (Option Task) :=
  w.loop.functors.lfBuffer.popAll.2 ++ w.loop.functors.pendingFunctors

def doPendingFunctors (w : Worker) : Worker :=
  { w with
    loop := w.loop.step throws .doPendingFunctors
    connections := w.connections ++ established throws (FunctorLoop.callEach throws w.round).1 }

/-- `WorkerEventLoop::removeConn`. -/
def removeConn (w : Worker) (connfd : ℕ) : Worker :=
  if connfd ∈ w.connections then
    { w with connections := w.connections.erase connfd, finished := w.finished ++ [connfd] }
  else w

/-- The functors waiting in the ring. -/
def tasks (w : Worker) : List Task := w.loop.functors.lfBuffer.popAll.2.reduceOption

/-- The connections waiting for their set-up. -/
def waiting (w : Worker) : List ℕ := w.tasks.filterMap Task.connfd

/-- The connections handed to the worker. -/
def handed (w : Worker) : List ℕ := w.loop.functors.queued.filterMap Task.connfd

/-- The ring takes another functor. -/
def HasRoom (w : Worker) : Prop := w.tasks.length + 1 < w.loop.functors.lfBuffer.size

instance (w : Worker) : Decidable w.HasRoom := inferInstanceAs (Decidable (_ < _))

/-- No set-up throws or waits behind a functor that throws. -/
def Unhindered (w : Worker) : Prop :=
  ∀ rest ∈ w.tasks.tails, (∃ task ∈ rest.head?, throws task = true) →
    ∀ task ∈ rest, task.connfd = none

instance (w : Worker) : Decidable (w.Unhindered throws) :=
  inferInstanceAs (Decidable (∀ rest ∈ w.tasks.tails, (∃ task ∈ rest.head?, throws task = true) →
    ∀ task ∈ rest, task.connfd = none))

/-- The connections that the worker has, has had or will set up. -/
def placed (w : Worker) : Multiset ℕ := w.connections + w.finished + w.waiting

/-- The connections that the worker has or will set up. -/
def load (w : Worker) : ℕ := w.connections.length + w.waiting.length

/-- The ring keeps functors, `pendingFunctors_` only empty ones, and the worker has no more
connections than it was handed. -/
structure Sound (w : Worker) : Prop where
  keeps : ∃ lo, w.loop.functors.lfBuffer.Keeps lo (w.tasks.map some)
  empty : ∀ f ∈ w.loop.functors.pendingFunctors, f = none
  le : w.placed.card ≤ w.handed.length

variable {throws} {w : Worker}

theorem reduceOption_map_some (tasks : List Task) : (tasks.map some).reduceOption = tasks := by
  induction tasks with
  | nil => rfl
  | cons task tasks ih => simpa using ih

theorem tasks_eq {lo : ℕ} {items : List Task}
    (h : w.loop.functors.lfBuffer.Keeps lo (items.map some)) : w.tasks = items := by
  rw [tasks, h.popAll.1, reduceOption_map_some]

theorem sound_of_keeps {lo : ℕ} {items : List Task}
    (h : w.loop.functors.lfBuffer.Keeps lo (items.map some))
    (hempty : ∀ f ∈ w.loop.functors.pendingFunctors, f = none)
    (hle : w.placed.card ≤ w.handed.length) : w.Sound :=
  ⟨⟨lo, (tasks_eq h).symm ▸ h⟩, hempty, hle⟩

theorem handed_queueInLoop (task : Task) :
    (w.queueInLoop throws task).handed = w.handed ++ task.connfd.toList := by
  change (w.loop.functors.queued ++ [task]).filterMap Task.connfd = _
  rw [List.filterMap_append, handed]
  cases task <;> rfl

/-! ### Queueing -/

variable (throws) in
/-- A call that finds room. -/
theorem Sound.queueInLoop (h : w.Sound) (hroom : w.HasRoom) (task : Task) :
    (w.queueInLoop throws task).Sound ∧
      (w.queueInLoop throws task).waiting = w.waiting ++ task.connfd.toList := by
  obtain ⟨lo, hkeeps⟩ := h.keeps
  obtain ⟨hpushed, hkept, -⟩ := hkeeps.push (by rw [List.length_map]; exact hroom) (some task)
  have hring : (w.queueInLoop throws task).loop.functors.lfBuffer.Keeps lo
      ((w.tasks ++ [task]).map some) := by
    rw [List.map_append]
    exact hkept
  have hpending : (w.queueInLoop throws task).loop.functors.pendingFunctors =
      w.loop.functors.pendingFunctors := if_pos hpushed
  have hwaiting : (w.queueInLoop throws task).waiting = w.waiting ++ task.connfd.toList := by
    rw [waiting, tasks_eq hring, List.filterMap_append]
    cases task <;> rfl
  refine ⟨sound_of_keeps hring (by rw [hpending]; exact h.empty) ?_, hwaiting⟩
  have hle := h.le
  rw [placed, hwaiting, handed_queueInLoop]
  simp only [placed, Multiset.card_add, Multiset.coe_card, List.length_append] at hle ⊢
  change w.connections.length + w.finished.length + _ ≤ _
  omega

variable (throws) in
/-- A call that finds the ring full. -/
theorem Sound.queueInLoop_full (h : w.Sound) (hfull : ¬w.HasRoom) (task : Task) :
    (w.queueInLoop throws task).Sound ∧ (w.queueInLoop throws task).waiting = w.waiting := by
  obtain ⟨lo, hkeeps⟩ := h.keeps
  have hroom := hkeeps.room
  rw [HasRoom] at hfull
  have hpush := hkeeps.push_full (by rw [List.length_map] at hroom ⊢; omega) (some task)
  have hring : (w.queueInLoop throws task).loop.functors.lfBuffer = w.loop.functors.lfBuffer :=
    congrArg Prod.fst hpush
  have hpending : (w.queueInLoop throws task).loop.functors.pendingFunctors =
      w.loop.functors.pendingFunctors ++ [none] :=
    if_neg (by rw [hpush]; exact Bool.false_ne_true)
  have hwaiting : (w.queueInLoop throws task).waiting = w.waiting := by
    rw [waiting, tasks, hring, waiting, tasks]
  refine ⟨sound_of_keeps (hring.symm ▸ hkeeps) ?_ ?_, hwaiting⟩
  · intro f hf
    rw [hpending] at hf
    rcases List.mem_append.mp hf with hf | hf
    · exact h.empty f hf
    · exact List.mem_singleton.mp hf
  · have hle := h.le
    rw [placed, hwaiting, handed_queueInLoop, List.length_append]
    exact hle.trans (Nat.le_add_right _ _)

/-! ### A round -/

theorem callEach_append_none (tasks : List Task) {empty : List (Option Task)}
    (hempty : ∀ f ∈ empty, f = none) :
    (FunctorLoop.callEach throws (tasks.map some ++ empty)).1 =
      (FunctorLoop.callEach throws (tasks.map some)).1 := by
  induction tasks with
  | nil =>
    cases empty with
    | nil => rfl
    | cons f empty =>
      obtain rfl := hempty f List.mem_cons_self
      rfl
  | cons task tasks ih =>
    rw [List.map_cons, List.cons_append, FunctorLoop.callEach, FunctorLoop.callEach]
    split
    · rfl
    · exact congrArg (task :: ·) ih

variable (throws) in
/-- The set-ups of a round are among those that waited, and they are all of them exactly if no
exception keeps one from its end. -/
theorem established_callEach (tasks : List Task) :
    (established throws (FunctorLoop.callEach throws (tasks.map some)).1).Sublist
        (tasks.filterMap Task.connfd) ∧
      (established throws (FunctorLoop.callEach throws (tasks.map some)).1 =
          tasks.filterMap Task.connfd ↔
        ∀ rest ∈ tasks.tails, (∃ task ∈ rest.head?, throws task = true) →
          ∀ task ∈ rest, task.connfd = none) := by
  induction tasks with
  | nil => simp [FunctorLoop.callEach, established]
  | cons task tasks ih =>
    obtain ⟨hsub, hiff⟩ := ih
    by_cases hthrows : throws task = true
    · have hnone : established throws (FunctorLoop.callEach throws ((task :: tasks).map some)).1 =
          [] := by
        simp [FunctorLoop.callEach, established, hthrows]
      rw [hnone, eq_comm, List.filterMap_eq_nil_iff, List.tails_cons]
      refine ⟨List.nil_sublist _, fun h rest hrest _ => ?_, fun h => ?_⟩
      · rcases List.mem_cons.mp hrest with rfl | hrest
        · exact h
        · exact fun t ht => h t (List.mem_cons_of_mem _
            (((List.mem_tails _ _).mp hrest).subset ht))
      · exact h _ List.mem_cons_self ⟨task, rfl, hthrows⟩
    · have hcons : established throws (FunctorLoop.callEach throws ((task :: tasks).map some)).1 =
          task.connfd.toList ++
            established throws (FunctorLoop.callEach throws (tasks.map some)).1 := by
        cases task <;> simp [FunctorLoop.callEach, established, hthrows, Task.connfd]
      have hwaits : (task :: tasks).filterMap Task.connfd =
          task.connfd.toList ++ tasks.filterMap Task.connfd := by
        cases task <;> rfl
      rw [hcons, hwaits, List.append_cancel_left_eq, hiff, List.tails_cons]
      refine ⟨hsub.append_left _, ?_⟩
      rw [List.forall_mem_cons]
      refine (and_iff_right ?_).symm
      rintro ⟨t, ht, hthrown⟩
      obtain rfl : task = t := Option.some.inj ht
      exact absurd hthrown hthrows

theorem Sound.connections_doPendingFunctors (h : w.Sound) :
    (w.doPendingFunctors throws).connections = w.connections ++
      established throws (FunctorLoop.callEach throws (w.tasks.map some)).1 := by
  obtain ⟨lo, hkeeps⟩ := h.keeps
  rw [← callEach_append_none w.tasks h.empty, ← hkeeps.popAll.1]
  rfl

variable (throws) in
theorem Sound.doPendingFunctors (h : w.Sound) :
    (w.doPendingFunctors throws).Sound ∧ (w.doPendingFunctors throws).waiting = [] ∧
      (w.doPendingFunctors throws).handed = w.handed ∧
      (w.doPendingFunctors throws).placed ≤ w.placed ∧
      ((w.doPendingFunctors throws).placed = w.placed ↔ w.Unhindered throws) := by
  obtain ⟨lo, hkeeps⟩ := h.keeps
  obtain ⟨hsub, hall⟩ := established_callEach throws w.tasks
  have hring : (w.doPendingFunctors throws).loop.functors.lfBuffer.Keeps
      (lo + (w.tasks.map some).length) (([] : List Task).map some) := hkeeps.popAll.2.1
  have hwaiting : (w.doPendingFunctors throws).waiting = [] := by
    rw [waiting, tasks_eq hring]
    rfl
  have hplaced : (w.doPendingFunctors throws).placed = w.connections +
      (established throws (FunctorLoop.callEach throws (w.tasks.map some)).1 : Multiset ℕ) +
        w.finished := by
    rw [placed, hwaiting, h.connections_doPendingFunctors, ← Multiset.coe_add]
    exact add_zero _
  have hbefore : w.placed = w.connections + (w.waiting : Multiset ℕ) + w.finished :=
    add_right_comm _ _ _
  have hle : (w.doPendingFunctors throws).placed ≤ w.placed := by
    rw [hplaced, hbefore]
    gcongr
    exact Multiset.coe_le.mpr hsub.subperm
  refine ⟨sound_of_keeps hring ?_ ?_, hwaiting, rfl, hle, ?_⟩
  · exact fun f hf => absurd hf List.not_mem_nil
  · exact (Multiset.card_le_card hle).trans h.le
  · rw [hplaced, hbefore, add_left_inj, add_right_inj, Multiset.coe_eq_coe, Unhindered, ← hall]
    exact ⟨fun hperm => hsub.eq_of_length hperm.length_eq, fun heq => heq ▸ List.Perm.refl _⟩

/-! ### Closing -/

theorem placed_removeConn (w : Worker) (connfd : ℕ) : (w.removeConn connfd).placed = w.placed := by
  unfold removeConn
  split
  · rename_i hmem
    have hperm : (w.connections.erase connfd ++ (w.finished ++ [connfd])).Perm
        (w.connections ++ w.finished) := by
      rw [← List.append_assoc]
      refine (List.perm_append_singleton _ _).trans ?_
      exact (List.perm_cons_erase hmem).symm.append_right w.finished
    exact congrArg (· + (w.waiting : Multiset ℕ)) (Multiset.coe_eq_coe.mpr hperm)
  · rfl

theorem loop_removeConn (w : Worker) (connfd : ℕ) : (w.removeConn connfd).loop = w.loop := by
  unfold removeConn
  split <;> rfl

theorem Sound.removeConn (h : w.Sound) (connfd : ℕ) : (w.removeConn connfd).Sound where
  keeps := by
    rw [tasks, loop_removeConn]
    exact h.keeps
  empty := by
    rw [loop_removeConn]
    exact h.empty
  le := by
    rw [placed_removeConn, handed, loop_removeConn]
    exact h.le

/-- A worker before anything is queued. -/
def new (q : SpscQueue Task) : Worker := { loop := .new q }

theorem new_sound {size : ℕ} {q : SpscQueue Task} (hq : SpscQueue.new size = some q) :
    (new q).Sound ∧ (new q).placed = 0 ∧ (new q).handed = [] := by
  have hring : (new q).loop.functors.lfBuffer.Keeps 0 (([] : List Task).map some) :=
    SpscQueue.new_keeps hq
  have hplaced : (new q).placed = 0 := by
    rw [placed, waiting, tasks_eq hring]
    rfl
  refine ⟨sound_of_keeps hring (fun f hf => absurd hf List.not_mem_nil) ?_, hplaced, rfl⟩
  rw [hplaced]
  exact Nat.zero_le _

end Worker

/-! ### The boss and its workers -/

/-- What a server does next; the boss draws `r₁` and `r₂` for a connection. -/
inductive Op (n : ℕ) where
  | accept (connfd r₁ r₂ : ℕ)
  | queueInLoop (i : Fin n) (id : ℕ)
  | doPendingFunctors (i : Fin n)
  | removeConn (i : Fin n) (connfd : ℕ)

/-- A return of `accept`. -/
inductive AcceptResult where
  | fd (connfd r₁ r₂ : ℕ)
  | again
  | intr
  | fail

structure Server (n : ℕ) where
  workers : Fin n → Worker
  /-- The descriptors that `accept` gave. -/
  accepted : List ℕ := []

namespace Server

variable {n : ℕ} (throws : Task → Bool)

def update (s : Server n) (i : Fin n) (w : Worker) : Server n :=
  { s with workers := Function.update s.workers i w }

def leastLoaded (s : Server n) (r₁ r₂ : ℕ) : Option (Fin n) :=
  EventLoopGroup.leastLoaded (fun i => (s.workers i).connectionCount) r₁ r₂

/-- A turn of `handleAccept` with a connection. -/
def accept (s : Server n) (connfd r₁ r₂ : ℕ) : Server n :=
  let taken := { s with accepted := s.accepted ++ [connfd] }
  match s.leastLoaded r₁ r₂ with
  | none => taken -- `::close(fd)`
  | some i => taken.update i ((s.workers i).queueInLoop throws (.setupConnection connfd))

/-- `BossEventLoop::handleAccept`. -/
def handleAccept : List AcceptResult → Server n → Server n
  | [], s => s
  | .fd connfd r₁ r₂ :: results, s => handleAccept results (s.accept throws connfd r₁ r₂)
  | .intr :: results, s => handleAccept results s
  | .again :: _, s => s
  | .fail :: _, s => s

def step (s : Server n) : Op n → Server n
  | .accept connfd r₁ r₂ => s.accept throws connfd r₁ r₂
  | .queueInLoop i id => s.update i ((s.workers i).queueInLoop throws (.other id))
  | .doPendingFunctors i => s.update i ((s.workers i).doPendingFunctors throws)
  | .removeConn i connfd => s.update i ((s.workers i).removeConn connfd)

def run (s : Server n) (ops : List (Op n)) : Server n := ops.foldl (step throws) s

/-- The turns of `handleAccept` that come to a connection. -/
def accepts : List AcceptResult → List (Op n)
  | [] => []
  | .fd connfd r₁ r₂ :: results => .accept connfd r₁ r₂ :: accepts results
  | .intr :: results => accepts results
  | .again :: _ => []
  | .fail :: _ => []

theorem handleAccept_eq_run (results : List AcceptResult) (s : Server n) :
    handleAccept throws results s = s.run throws (accepts results) := by
  fun_induction handleAccept throws results s with
  | case1 s => rfl
  | case2 s connfd r₁ r₂ results ih => exact ih
  | case3 s results ih => exact ih
  | case4 s results => rfl
  | case5 s results => rfl

/-- A server before it accepts anything. -/
def new (n : ℕ) (q : SpscQueue Task) : Server n := { workers := fun _ => .new q }

/-- The connections that a worker has, has had or will set up. -/
def placed (s : Server n) : Multiset ℕ := ∑ i, (s.workers i).placed

/-- The step does not lose a connection: the worker chosen has room for the set-up, and in a
round no set-up is kept from its end. -/
def NoneLost (s : Server n) : Op n → Prop
  | .accept _ r₁ r₂ => ∃ i ∈ s.leastLoaded r₁ r₂, (s.workers i).HasRoom
  | .doPendingFunctors i => (s.workers i).Unhindered throws
  | .queueInLoop _ _ => True
  | .removeConn _ _ => True

instance decidableNoneLost (s : Server n) : (op : Op n) → Decidable (s.NoneLost throws op)
  | .accept _ r₁ r₂ =>
    inferInstanceAs (Decidable (∃ i ∈ s.leastLoaded r₁ r₂, (s.workers i).HasRoom))
  | .doPendingFunctors i => inferInstanceAs (Decidable ((s.workers i).Unhindered throws))
  | .queueInLoop _ _ => .isTrue trivial
  | .removeConn _ _ => .isTrue trivial

structure Sound (s : Server n) : Prop where
  workers : ∀ i, (s.workers i).Sound
  le : s.placed ≤ s.accepted

variable {throws} {s : Server n}

theorem placed_update (s : Server n) (i : Fin n) (w : Worker) :
    (s.update i w).placed + (s.workers i).placed = s.placed + w.placed := by
  have hothers : ∑ j ∈ Finset.univ.erase i, ((s.update i w).workers j).placed =
      ∑ j ∈ Finset.univ.erase i, (s.workers j).placed := by
    refine Finset.sum_congr rfl fun j hj => congrArg Worker.placed ?_
    exact Function.update_of_ne (Finset.ne_of_mem_erase hj) ..
  have hself : (s.update i w).workers i = w := Function.update_self ..
  rw [placed, placed, ← Finset.add_sum_erase _ _ (Finset.mem_univ i), hself, hothers,
    ← Finset.add_sum_erase _ (fun j => (s.workers j).placed) (Finset.mem_univ i)]
  ac_rfl

theorem placed_update_of_eq {i : Fin n} {w : Worker} (h : w.placed = (s.workers i).placed) :
    (s.update i w).placed = s.placed :=
  add_right_cancel ((placed_update s i w).trans (congrArg (s.placed + ·) h))

theorem Sound.update_workers (h : s.Sound) {i : Fin n} {w : Worker} (hw : w.Sound) (j : Fin n) :
    ((s.update i w).workers j).Sound := by
  change (Function.update s.workers i w j).Sound
  rw [Function.update_apply]
  split
  · exact hw
  · exact h.workers j

/-! ### Lost connections -/

/-- A connection that no worker gets is missing. -/
theorem Sound.placed_ne (h : s.Sound) (connfd : ℕ) :
    s.placed ≠ (s.accepted ++ [connfd] : List ℕ) := by
  intro heq
  have hcard := Multiset.card_le_card h.le
  rw [heq, Multiset.coe_card, Multiset.coe_card, List.length_append, List.length_singleton] at hcard
  omega

theorem Sound.accept (h : s.Sound) (connfd r₁ r₂ : ℕ) :
    (s.accept throws connfd r₁ r₂).Sound ∧
      ((s.accept throws connfd r₁ r₂).placed = (s.accept throws connfd r₁ r₂).accepted ↔
        s.placed = s.accepted ∧ ∃ i ∈ s.leastLoaded r₁ r₂, (s.workers i).HasRoom) := by
  have hgrown : s.placed ≤ (s.accepted ++ [connfd] : List ℕ) :=
    h.le.trans (Multiset.coe_le.mpr (List.sublist_append_left _ _).subperm)
  rw [Server.accept]
  cases hchosen : s.leastLoaded r₁ r₂ with
  | none =>
    refine ⟨⟨h.workers, hgrown⟩, iff_of_false (h.placed_ne connfd) ?_⟩
    rintro ⟨-, i, hi, -⟩
    cases hi
  | some i =>
    by_cases hroom : (s.workers i).HasRoom
    · obtain ⟨hsound, hwaiting⟩ :=
        (h.workers i).queueInLoop throws hroom (.setupConnection connfd)
      have hworker : ((s.workers i).queueInLoop throws (.setupConnection connfd)).placed =
          (s.workers i).placed + {connfd} := by
        rw [Worker.placed, hwaiting, Worker.placed, ← Multiset.coe_add, ← add_assoc]
        rfl
      have hplaced : (s.update i
          ((s.workers i).queueInLoop throws (.setupConnection connfd))).placed =
            s.placed + {connfd} := by
        have hsum := placed_update s i ((s.workers i).queueInLoop throws (.setupConnection connfd))
        rw [hworker, ← add_assoc, add_right_comm] at hsum
        exact add_right_cancel hsum
      have haccepted : ((s.accepted ++ [connfd] : List ℕ) : Multiset ℕ) =
          s.accepted + {connfd} := (Multiset.coe_add _ _).symm
      refine ⟨⟨h.update_workers hsound, ?_⟩, ?_⟩
      · change (s.update i _).placed ≤ _
        rw [hplaced]
        exact (add_le_add_left h.le _).trans_eq haccepted.symm
      · change (s.update i _).placed = (s.accepted ++ [connfd] : List ℕ) ↔ _
        rw [hplaced, haccepted, add_left_inj]
        exact (and_iff_left ⟨i, rfl, hroom⟩).symm
    · obtain ⟨hsound, hwaiting⟩ :=
        (h.workers i).queueInLoop_full throws hroom (.setupConnection connfd)
      have hplaced : (s.update i
          ((s.workers i).queueInLoop throws (.setupConnection connfd))).placed = s.placed := by
        refine placed_update_of_eq ?_
        rw [Worker.placed, hwaiting]
        rfl
      refine ⟨⟨h.update_workers hsound, hplaced.trans_le hgrown⟩, iff_of_false ?_ ?_⟩
      · exact fun heq => h.placed_ne connfd (hplaced.symm.trans heq)
      · rintro ⟨-, j, hj, hjroom⟩
        obtain rfl := Option.some.inj hj
        exact hroom hjroom

theorem Sound.doPendingFunctors (h : s.Sound) (i : Fin n) :
    (s.step throws (.doPendingFunctors i)).Sound ∧
      ((s.step throws (.doPendingFunctors i)).placed = s.accepted ↔
        s.placed = s.accepted ∧ (s.workers i).Unhindered throws) := by
  obtain ⟨hsound, -, -, hle, hiff⟩ := (h.workers i).doPendingFunctors throws
  have hsum := placed_update s i ((s.workers i).doPendingFunctors throws)
  have hfewer : (s.update i ((s.workers i).doPendingFunctors throws)).placed ≤ s.placed := by
    refine le_of_add_le_add_right (hsum.trans_le ?_)
    gcongr
  refine ⟨⟨h.update_workers hsound, hfewer.trans h.le⟩, ?_⟩
  change (s.update i _).placed = _ ↔ _
  rw [← hiff]
  constructor
  · intro hall
    have hplaced : s.placed = s.accepted := le_antisymm h.le (hall.symm.trans_le hfewer)
    refine ⟨hplaced, ?_⟩
    rw [hall, ← hplaced] at hsum
    exact (add_left_cancel hsum).symm
  · rintro ⟨hplaced, heq⟩
    exact (placed_update_of_eq heq).trans hplaced

variable (throws) in
theorem Sound.queueInLoop (h : s.Sound) (i : Fin n) (id : ℕ) :
    (s.step throws (.queueInLoop i id)).Sound ∧
      (s.step throws (.queueInLoop i id)).placed = s.placed := by
  have hworker : ((s.workers i).queueInLoop throws (.other id)).Sound ∧
      ((s.workers i).queueInLoop throws (.other id)).placed = (s.workers i).placed := by
    rw [Worker.placed]
    by_cases hroom : (s.workers i).HasRoom
    · obtain ⟨hsound, hwaiting⟩ := (h.workers i).queueInLoop throws hroom (.other id)
      rw [hwaiting, show (Task.other id).connfd.toList = [] from rfl, List.append_nil]
      exact ⟨hsound, rfl⟩
    · obtain ⟨hsound, hwaiting⟩ :=
        (h.workers i).queueInLoop_full throws hroom (.other id)
      rw [hwaiting]
      exact ⟨hsound, rfl⟩
  have hplaced := placed_update_of_eq hworker.2
  exact ⟨⟨h.update_workers hworker.1, hplaced.trans_le h.le⟩, hplaced⟩

variable (throws) in
theorem Sound.removeConn (h : s.Sound) (i : Fin n) (connfd : ℕ) :
    (s.step throws (.removeConn i connfd)).Sound ∧
      (s.step throws (.removeConn i connfd)).placed = s.placed := by
  have hplaced := placed_update_of_eq (Worker.placed_removeConn (s.workers i) connfd)
  exact ⟨⟨h.update_workers ((h.workers i).removeConn connfd), hplaced.trans_le h.le⟩, hplaced⟩

variable (throws) in
theorem Sound.step (h : s.Sound) (op : Op n) :
    (s.step throws op).Sound ∧ ((s.step throws op).placed = (s.step throws op).accepted ↔
      s.placed = s.accepted ∧ s.NoneLost throws op) := by
  cases op with
  | accept connfd r₁ r₂ => exact h.accept connfd r₁ r₂
  | queueInLoop i id =>
    obtain ⟨hsound, hplaced⟩ := h.queueInLoop throws i id
    refine ⟨hsound, ?_⟩
    rw [hplaced]
    exact (and_iff_left trivial).symm
  | doPendingFunctors i => exact h.doPendingFunctors i
  | removeConn i connfd =>
    obtain ⟨hsound, hplaced⟩ := h.removeConn throws i connfd
    refine ⟨hsound, ?_⟩
    rw [hplaced]
    exact (and_iff_left trivial).symm

theorem new_sound (n : ℕ) {size : ℕ} {q : SpscQueue Task} (hq : SpscQueue.new size = some q) :
    (new n q).Sound ∧ (new n q).placed = (new n q).accepted := by
  have hplaced : (new n q).placed = 0 := Finset.sum_eq_zero fun i _ => (Worker.new_sound hq).2.1
  exact ⟨⟨fun i => (Worker.new_sound hq).1, hplaced.trans_le (Multiset.zero_le _)⟩, hplaced⟩

end Server

open Server Ledger in
/-- **No connection is lost or doubled.** Along every run a connection is placed at most once,
with at most one worker; all of those accepted are placed exactly if each accept finds room in
the ring of the worker it chooses and no exception in a round keeps a set-up from its end. -/
theorem run_placed_iff {size : ℕ} {q : SpscQueue Task} (hq : SpscQueue.new size = some q) (n : ℕ)
    (throws : Task → Bool) (ops : List (Op n)) :
    ((new n q).run throws ops).placed ≤ ((new n q).run throws ops).accepted ∧
      (((new n q).run throws ops).placed = ((new n q).run throws ops).accepted ↔
        Along (step throws) (NoneLost throws) (new n q) ops) := by
  obtain ⟨hsound, hplaced⟩ := new_sound n hq
  refine ⟨(foldl_preserves Sound (fun s op h => (h.step throws op).1) hsound ops).le, ?_⟩
  have hiff := foldl_iff_along (G := fun s : Server n => s.placed = s.accepted) Sound
    (fun s op h => (h.step throws op).1) (fun s op h => (h.step throws op).2) hsound ops
  exact hiff.trans (and_iff_right hplaced)

/-- Two connections that come before the first is set up. -/
theorem run_placed_iff_two :
    ((Server.new 2 (.smallest Task)).run (fun _ => false)
      [.accept 7 0 0, .accept 8 0 0, .doPendingFunctors 1]).placed = {7, 8} :=
  (run_placed_iff (SpscQueue.new_smallest Task) 2 (fun _ => false)
    [.accept 7 0 0, .accept 8 0 0, .doPendingFunctors 1]).2.mpr (by decide)

/-! ### The loads -/

namespace Server

variable {n : ℕ} {throws : Task → Bool} {s : Server n} {d : ℕ}

/-- The worker chosen has at most `d` connections waiting for their set-up. -/
def Prompt (d : ℕ) (s : Server n) : Op n → Prop
  | .accept _ r₁ r₂ => ∀ i ∈ s.leastLoaded r₁ r₂, (s.workers i).waiting.length ≤ d
  | .doPendingFunctors _ => True
  | .queueInLoop _ _ => True
  | .removeConn _ _ => True

instance decidablePrompt (s : Server n) : (op : Op n) → Decidable (s.Prompt d op)
  | .accept _ r₁ r₂ =>
    inferInstanceAs (Decidable (∀ i ∈ s.leastLoaded r₁ r₂, (s.workers i).waiting.length ≤ d))
  | .doPendingFunctors _ => .isTrue trivial
  | .queueInLoop _ _ => .isTrue trivial
  | .removeConn _ _ => .isTrue trivial

/-- No worker is more than `d + 1` connections ahead of what every other was handed. -/
def Balanced (d : ℕ) (s : Server n) : Prop :=
  ∀ i, ∃ j, j ≠ i ∧ (s.workers i).load ≤ (s.workers j).handed.length + d + 1

theorem Balanced.update (h : s.Balanced d) {i : Fin n} {w : Worker}
    (hload : ∃ j, j ≠ i ∧ w.load ≤ (s.workers j).handed.length + d + 1)
    (hhanded : (s.workers i).handed.length ≤ w.handed.length) : (s.update i w).Balanced d := by
  intro k
  simp only [Server.update, Function.update_apply]
  by_cases hk : k = i
  · subst hk
    obtain ⟨j, hne, hj⟩ := hload
    refine ⟨j, hne, ?_⟩
    rwa [if_pos rfl, if_neg hne]
  · obtain ⟨j, hne, hj⟩ := h k
    refine ⟨j, hne, ?_⟩
    rw [if_neg hk]
    split
    · rename_i heq
      subst heq
      omega
    · exact hj

/-- A worker whose load does not grow. -/
theorem Balanced.update_of_le (h : s.Balanced d) {i : Fin n} {w : Worker}
    (hload : w.load ≤ (s.workers i).load)
    (hhanded : (s.workers i).handed.length ≤ w.handed.length) : (s.update i w).Balanced d := by
  obtain ⟨j, hne, hj⟩ := h i
  exact h.update ⟨j, hne, hload.trans hj⟩ hhanded

theorem Sound.connectionCount_le (h : s.Sound) (i : Fin n) :
    (s.workers i).connectionCount ≤ (s.workers i).handed.length := by
  have hle := (h.workers i).le
  simp only [Worker.placed, Multiset.card_add, Multiset.coe_card] at hle
  rw [Worker.connectionCount]
  omega

variable (throws) in
/-- The set-up that the boss queues. -/
theorem Sound.load_queueInLoop (h : s.Sound) (i : Fin n) (task : Task) :
    ((s.workers i).queueInLoop throws task).load ≤
        (s.workers i).load + task.connfd.toList.length := by
  have hwaiting : ((s.workers i).queueInLoop throws task).waiting.length ≤
      (s.workers i).waiting.length + task.connfd.toList.length := by
    by_cases hroom : (s.workers i).HasRoom
    · rw [((h.workers i).queueInLoop throws hroom task).2, List.length_append]
    · rw [((h.workers i).queueInLoop_full throws hroom task).2]
      exact Nat.le_add_right _ _
  rw [Worker.load, Worker.load, Nat.add_assoc]
  exact Nat.add_le_add_left hwaiting _

theorem handed_queueInLoop_le (w : Worker) (task : Task) :
    w.handed.length ≤ (w.queueInLoop throws task).handed.length := by
  rw [Worker.handed_queueInLoop, List.length_append]
  exact Nat.le_add_right _ _

theorem Sound.load_doPendingFunctors (h : s.Sound) (i : Fin n) :
    ((s.workers i).doPendingFunctors throws).load ≤ (s.workers i).load := by
  have hsub := (Worker.established_callEach throws (s.workers i).tasks).1.length_le
  rw [Worker.load, (h.workers i).connections_doPendingFunctors,
    ((h.workers i).doPendingFunctors throws).2.1, List.length_append, Worker.load]
  exact Nat.add_le_add_left hsub _

theorem load_removeConn (w : Worker) (connfd : ℕ) : (w.removeConn connfd).load ≤ w.load := by
  unfold Worker.removeConn
  split
  · exact Nat.add_le_add_right (List.erase_sublist).length_le _
  · exact le_rfl

theorem Balanced.step (hn : 1 < n) (h : s.Balanced d) (hs : s.Sound) {op : Op n}
    (hprompt : s.Prompt d op) : (s.step throws op).Balanced d := by
  cases op with
  | accept connfd r₁ r₂ =>
    obtain ⟨i, j, hchosen, hne, hcount⟩ := EventLoopGroup.leastLoaded_spec hn
      (fun i => (s.workers i).connectionCount) r₁ r₂
    have hwaiting := hprompt i hchosen
    have hload := hs.load_queueInLoop throws i (.setupConnection connfd)
    have hother := hs.connectionCount_le j
    have hchosen : s.leastLoaded r₁ r₂ = some i := hchosen
    rw [Server.step, Server.accept, hchosen]
    refine Balanced.update (s := { s with accepted := s.accepted ++ [connfd] }) h
      ⟨j, hne, hload.trans ?_⟩ (handed_queueInLoop_le _ _)
    change (s.workers i).connectionCount + (s.workers i).waiting.length + 1 ≤
      (s.workers j).handed.length + d + 1
    omega
  | queueInLoop i id =>
    exact h.update_of_le (hs.load_queueInLoop throws i (.other id)) (handed_queueInLoop_le _ _)
  | doPendingFunctors i => exact h.update_of_le (hs.load_doPendingFunctors i) le_rfl
  | removeConn i connfd =>
    refine h.update_of_le (load_removeConn _ _) ?_
    rw [Worker.handed, Worker.handed, Worker.loop_removeConn]

end Server

end XNetty.Event.Handoff
