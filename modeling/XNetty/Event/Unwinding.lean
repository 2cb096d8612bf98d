import XNetty.Event.Worker

/-!
# Where exceptions end

Handlers are called with a guard around each call, only `handlerRemoved` is not. An exception
that leaves it unwinds the whole event, and drops what the worker still had to do for this
event: the rest of `pipeline().clear()`, the other events of the poll, the other connections of
the tick. No other frame is ever dropped.

## Main definitions

* `Layered` — the shape of the control stack.
* `Cut` — what an exception leaves of the frames of a connection.
-/

namespace XNetty.Event

open Reentrant

/-- Frames that an exception can drop. -/
def Frame.cutOff : Frame → Bool
  | .deliver .removed _ | .onWrite | .onError | .timeout => true
  | _ => false

/-- What stands above the frame of the event at work: guarded calls, and loops of them. -/
def Frame.calm : Frame → Bool
  | .deliver ev _ => ev ≠ .removed
  | _ => false

variable {ι : Type*}

def calmSlot : Slot ι Frame → Bool
  | .frame _ f => f.calm
  | .outside guarded => guarded

def cutOffSlot : Slot ι Frame → Bool
  | .frame _ f => f.cutOff
  | .outside guarded => !guarded

/-- Calm slots above one frame of any kind, and below it what an exception can drop. -/
def Layered (stack : List (Slot ι Frame)) : Prop :=
  ∃ above base, stack = above ++ base ∧ (∀ slot ∈ above, calmSlot slot) ∧
    ((∀ slot ∈ base, cutOffSlot slot) ∨
      ∃ i f below, base = .frame i f :: below ∧ ∀ slot ∈ below, cutOffSlot slot)

theorem Layered.of_calm_append (above : List (Slot ι Frame)) {stack : List (Slot ι Frame)}
    (habove : ∀ slot ∈ above, calmSlot slot) (h : Layered stack) : Layered (above ++ stack) := by
  obtain ⟨above', base, rfl, habove', hbase⟩ := h
  refine ⟨above ++ above', base, by simp, ?_, hbase⟩
  intro slot hslot
  rcases List.mem_append.mp hslot with h | h
  · exact habove slot h
  · exact habove' slot h

theorem Layered.of_cutOff {stack : List (Slot ι Frame)} (h : ∀ slot ∈ stack, cutOffSlot slot) :
    Layered stack := ⟨[], stack, rfl, by simp, .inl h⟩

theorem Layered.of_frame {i : ι} {f : Frame} {below : List (Slot ι Frame)}
    (h : ∀ slot ∈ below, cutOffSlot slot) : Layered (.frame i f :: below) :=
  ⟨[], _, rfl, by simp, .inr ⟨i, f, below, rfl, h⟩⟩

/-- The part of a stack below an outside place. -/
theorem Layered.tail {slot : Slot ι Frame} {rest : List (Slot ι Frame)}
    (h : Layered (slot :: rest)) : Layered rest := by
  obtain ⟨above, base, hstack, habove, hbase⟩ := h
  cases above with
  | cons slot' above =>
    obtain ⟨rfl, rfl⟩ := List.cons.inj hstack
    exact ⟨above, base, rfl, fun s hs => habove s (by simp [hs]), hbase⟩
  | nil =>
    rw [List.nil_append] at hstack
    subst hstack
    rcases hbase with hbase | ⟨i, f, below, hstack, hbelow⟩
    · exact .of_cutOff fun s hs => hbase s (by simp [hs])
    · obtain ⟨-, rfl⟩ := List.cons.inj hstack
      exact .of_cutOff hbelow

/-- An unguarded place stands above nothing but what an exception can drop. -/
theorem Layered.of_unguarded {rest : List (Slot ι Frame)}
    (h : Layered (.outside false :: rest)) : ∀ slot ∈ rest, cutOffSlot slot := by
  obtain ⟨above, base, hstack, habove, hbase⟩ := h
  cases above with
  | cons slot above =>
    obtain ⟨rfl, -⟩ := List.cons.inj hstack
    exact absurd (habove _ List.mem_cons_self) (by simp [calmSlot])
  | nil =>
    rw [List.nil_append] at hstack
    subst hstack
    rcases hbase with hbase | ⟨i, f, below, hstack, -⟩
    · exact fun s hs => hbase s (by simp [hs])
    · cases hstack

/-- A frame that is not calm stands above nothing but what an exception can drop. -/
theorem Layered.of_not_calm {i : ι} {f : Frame} {rest : List (Slot ι Frame)} (hf : ¬ f.calm)
    (h : Layered (.frame i f :: rest)) : ∀ slot ∈ rest, cutOffSlot slot := by
  obtain ⟨above, base, hstack, habove, hbase⟩ := h
  cases above with
  | cons slot above =>
    obtain ⟨rfl, -⟩ := List.cons.inj hstack
    exact absurd (habove _ List.mem_cons_self) hf
  | nil =>
    rw [List.nil_append] at hstack
    subst hstack
    rcases hbase with hbase | ⟨j, g, below, hstack, hbelow⟩
    · exact fun s hs => hbase s (by simp [hs])
    · obtain ⟨-, rfl⟩ := List.cons.inj hstack
      exact hbelow

/-! ### Every reachable stack is layered -/

theorem unwind_cutOff {stack : List (Slot ι Frame)} (h : ∀ slot ∈ stack, cutOffSlot slot) :
    unwind stack = [] := by
  fun_induction unwind stack with
  | case1 => rfl
  | case2 rest => exact absurd (h _ List.mem_cons_self) (by simp [cutOffSlot])
  | case3 slot rest _ ih => exact ih fun s hs => h s (List.mem_cons_of_mem _ hs)

theorem deliver_calm (c : Conn) {ev : LifeEvent} (hev : ev ≠ .removed) (j : ℕ) (i : ι) :
    ∀ slot ∈ (c.deliver ev j).2.map (Item.owned i), calmSlot slot := by
  unfold Conn.deliver
  split
  · simp
  · split <;> simp [Item.owned, calmSlot, Frame.calm, hev]

theorem deliver_removed_cutOff (c : Conn) (j : ℕ) (i : ι) :
    ∀ slot ∈ (c.deliver .removed j).2.map (Item.owned i), cutOffSlot slot := by
  unfold Conn.deliver
  split
  · simp
  · split <;> simp [Item.owned, cutOffSlot, Frame.cutOff]

theorem fireNext_calm (c : Conn) (ev : LifeEvent) (j : ℕ) (i : ι) :
    ∀ slot ∈ (c.fireNext ev j).2.map (Item.owned i), calmSlot slot := by
  unfold Conn.fireNext
  split
  · simp
  · split <;> simp [Item.owned, calmSlot]

theorem close_calm (c : Conn) (i : ι) : ∀ slot ∈ c.close.2.map (Item.owned i), calmSlot slot := by
  unfold Conn.close
  split <;> simp [Item.owned, calmSlot, Frame.calm]

variable [DecidableEq ι]

/-- Calls of outside code put nothing but loops on the stack. -/
theorem call_calm (a : Api) (c : Conn) (i : ι) :
    ∀ slot ∈ ((worker ι).call a c).2.map (Item.owned i), calmSlot slot := by
  cases a with
  | close => exact close_calm c i
  | fireWrite buf =>
    simp only [worker, Conn.fireWrite]
    split
    · split
      · exact close_calm _ i
      · simp
    · simp
  | fire ev j =>
    simp only [worker]
    split
    · simp
    · exact fireNext_calm c ev _ i
  | _ => simp [worker]

/-- What a frame that is not calm puts on the stack: calm slots above at most one frame, or
what an exception can drop. -/
theorem go_layered (f : Frame) (hf : ¬ f.calm) (c : Conn) (i : ι) {rest : List (Slot ι Frame)}
    (hrest : ∀ slot ∈ rest, cutOffSlot slot) :
    Layered (((worker ι).go f c).2.map (Item.owned i) ++ rest) := by
  have hnil : Layered rest := .of_cutOff hrest
  have hone : ∀ g : Frame, Layered (.frame i g :: rest) := fun g => .of_frame hrest
  have hloop : ∀ (ev : LifeEvent) (g : Frame), ev ≠ .removed →
      Layered (.frame i (.deliver ev 0) :: .frame i g :: rest) := fun ev g hev =>
    .of_calm_append [.frame i (.deliver ev 0)]
      (by simp [calmSlot, Frame.calm, hev]) (hone g)
  cases f with
  | setup fd handlers waterMark =>
    simp only [worker, Conn.setupConnection]
    split
    · exact hloop _ _ (by decide)
    · exact hnil
  | activate => exact hloop _ _ (by decide)
  | onRead n =>
    simp only [worker, Conn.onRead]
    split
    · cases n with
      | data =>
        simp only [List.map_append, List.append_assoc]
        exact .of_calm_append _ (fireNext_calm _ .read 0 i) (hloop _ _ (by decide))
      | again => exact hnil
      | _ => exact hloop _ _ (by decide)
    · exact hnil
  | checkClosed =>
    simp only [worker]
    split
    · exact hone _
    · exact hnil
  | onError =>
    simp only [worker, Conn.onError]
    split
    · exact hloop _ _ (by decide)
    · exact hnil
  | timeout => exact hloop _ _ (by decide)
  | removeConn =>
    simp only [worker, Conn.removeConn]
    split
    · exact hloop _ _ (by decide)
    · exact hnil
  | closeChannel => exact hone _
  | deliver ev j =>
    have hev : ev = .removed := by simpa [Frame.calm] using hf
    subst hev
    refine .of_cutOff fun slot hslot => ?_
    rcases List.mem_append.mp hslot with h | h
    · exact deliver_removed_cutOff c j i slot h
    · exact hrest slot h
  | _ => exact hnil

theorem start_layered (e : WorkerEvent ι) (objects : ι → Conn) :
    Layered ((worker ι).start e objects) := by
  cases e with
  | accept c fd handlers waterMark => exact .of_frame (by simp)
  | poll c read write error =>
    have hrest : ∀ slot ∈ (if write then [Slot.frame c .onWrite] else []) ++
        (if error then [.frame c .onError] else []), cutOffSlot slot := by
      cases write <;> cases error <;> simp [cutOffSlot, Frame.cutOff]
    cases read with
    | none => exact .of_cutOff (by simpa [worker] using hrest)
    | some n =>
      have hlayered : Layered (.frame c (.onRead n) :: _) := .of_frame hrest
      simpa [worker] using hlayered
  | tick timedOut =>
    refine .of_cutOff fun slot hslot => ?_
    obtain ⟨c, -, rfl⟩ := List.mem_map.mp hslot
    rfl
  | callback => exact .of_cutOff (by simp [worker, cutOffSlot])
  | workerGone c => exact .of_frame (by simp)
  | release c => exact .of_frame (by simp)

theorem step_layered {m : Machine ι Conn Frame} (h : Layered m.stack)
    (choice : Choice ι Api (WorkerEvent ι)) : Layered (m.step (worker ι) choice).stack := by
  obtain ⟨objects, stack⟩ := m
  cases choice with
  | start e =>
    cases stack with
    | nil => exact start_layered e objects
    | cons slot rest => exact h
  | go =>
    match stack, h with
    | [], h => exact h
    | .outside guarded :: rest, h => exact h
    | .frame i f :: rest, h =>
      by_cases hf : f.calm
      · refine Layered.of_calm_append _ ?_ h.tail
        cases f with
        | deliver ev j => exact deliver_calm _ (by simpa [Frame.calm] using hf) j i
        | _ => cases hf
      · exact go_layered f hf _ i (h.of_not_calm hf)
  | call i a =>
    match stack, h with
    | [], h => exact h
    | .frame j f :: rest, h => exact h
    | .outside guarded :: rest, h => exact .of_calm_append _ (call_calm a _ i) h
  | ret =>
    match stack, h with
    | [], h => exact h
    | .frame j f :: rest, h => exact h
    | .outside guarded :: rest, h => exact h.tail
  | throw =>
    match stack, h with
    | [], h => exact h
    | .frame j f :: rest, h => exact h
    | .outside true :: rest, h => exact h.tail
    | .outside false :: rest, h =>
      rw [show (Machine.step (worker ι) ⟨objects, .outside false :: rest⟩ .throw).stack = [] from
        unwind_cutOff (by simpa [cutOffSlot] using h.of_unguarded)]
      exact .of_cutOff (by simp)

/-! ### What is dropped -/

/-- An exception leaves the frames of a connection alone, or drops them all: then there is
nothing among them but the end of a removal, and events that have not begun. -/
def Cut (fs fs' : List Frame) : Prop := fs' = fs ∨ fs' = [] ∧ ∀ f ∈ fs, f.cutOff

/-- The discipline, with what is known of exceptions. -/
def withCut (d : Discipline Conn Frame Api) : Discipline Conn Frame Api :=
  { d with drop := fun c fs fs' => d.drop c fs fs' ∧ Cut fs fs' }

theorem cut_unwind {stack : List (Slot ι Frame)} {guarded : Bool}
    (h : Layered (.outside guarded :: stack)) (i : ι) :
    Cut (framesOf i (.outside guarded :: stack))
      (framesOf i (unwind (.outside guarded :: stack))) := by
  cases guarded with
  | true => exact .inl rfl
  | false =>
    have hrest := h.of_unguarded
    have hnil : unwind (.outside false :: stack) = [] :=
      unwind_cutOff (by simpa [cutOffSlot] using hrest)
    refine .inr ⟨by rw [hnil]; rfl, fun f hf => ?_⟩
    have hslot := mem_framesOf.mp hf
    exact hrest _ (by simpa using hslot)

theorem keeps_withCut {d : Discipline Conn Frame Api} {m : Machine ι Conn Frame}
    (h : Layered m.stack) {choice : Choice ι Api (WorkerEvent ι)} (hkeeps : d.Keeps m choice) :
    (withCut d).Keeps m choice := by
  obtain ⟨objects, stack⟩ := m
  cases choice with
  | throw =>
    match stack, h, hkeeps with
    | [], _, _ => trivial
    | .frame j f :: rest, _, _ => trivial
    | .outside guarded :: rest, h, hkeeps => exact fun i => ⟨hkeeps i, cut_unwind h i⟩
  | _ => exact hkeeps

/-- **Runs of a worker.** An invariant that is inductive where exceptions drop no more than they
can holds of every connection after every run that keeps the discipline. -/
theorem run_satisfies {d : Discipline Conn Frame Api} {I : Conn → List Frame → Prop}
    (hI : (worker ι).Inductive (withCut d) I) (sockets : ι → Socket)
    (hnew : ∀ socket, I { socket := socket } [])
    {choices : List (Choice ι Api (WorkerEvent ι))}
    (hkeeps : Ledger.Along (Machine.step (worker ι)) d.Keeps (newWorker sockets) choices) :
    ((newWorker sockets).run (worker ι) choices).Satisfies I := by
  refine hI.run (fun i => hnew (sockets i)) ?_
  exact hkeeps.strengthen (fun m : Machine ι Conn Frame => Layered m.stack)
    (fun m choice h => step_layered h choice) (fun m choice h => keeps_withCut h)
    (.of_cutOff (by simp [newWorker]))

end XNetty.Event
