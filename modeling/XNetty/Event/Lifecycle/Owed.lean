import XNetty.Event.Zombies

/-!
# What handlers see and are owed

What an inbound handler has seen, followed by what the frames of its connection still owe it,
is a lifecycle: `channelRegistered`, `channelActive`, reads, and once the connection ends
`channelInactive`, `channelUnregistered` and `handlerRemoved`. Every function of the worker
keeps to this; what breaks it are calls that set `closed_` without firing `channelInactive` where
nobody else will, or fire it where somebody else will.

## Main definitions

* `lifecycle` — what a handler sees from the beginning to the end of its connection.
* `completeLifecycle` — the discipline under which every handler sees one.
* `owes` — what the frames of a connection still owe a handler.
-/

namespace XNetty.Event

open Reentrant

/-! ### What handlers see -/

def LogEntry.seenBy (i : ℕ) : LogEntry → Option LifeEvent
  | .life j ev => if j = i ∧ ev ≠ .readComplete then some ev else none
  | .sys _ _ => none

/-- What handler `i` has seen, but for `channelReadComplete`. -/
def Conn.seen (c : Conn) (i : ℕ) : List LifeEvent := c.log.filterMap (LogEntry.seenBy i)

def ending : List LifeEvent := [.inactive, .unregistered, .removed]

/-- The beginning of a lifecycle with its reads, and its end if the connection has ended. -/
def course (reads : ℕ) (ended : Bool) : List LifeEvent :=
  [.registered, .active] ++ List.replicate reads .read ++ if ended then ending else []

def lifecycle (reads : ℕ) : List LifeEvent := course reads true

def Conn.hasInbound (c : Conn) : Bool := c.handlers.any HandlerEntry.inbound

/-- A handler that has seen `channelActive` and not yet `channelInactive`. -/
def Conn.Receptive (c : Conn) (i : ℕ) : Prop := .active ∈ c.seen i ∧ .inactive ∉ c.seen i

/-- The call tells the handlers when it sets `closed_`. -/
def Api.fires (c : Conn) : Api → Bool
  | .close => true
  | .fireWrite buf => (c.append buf).isWriteBufOverflow
  | _ => false

/-- An open connection is closed by `Context::close` during its own `onRead`, by a flag during
the tick it has timed out in, and otherwise by the worker alone; handlers pass on nothing but
reads, while the next handler is active; and no exception cuts a removal off. -/
def completeLifecycle : Discipline Conn Frame Api where
  go f c _ := f = .onWrite → c.hasInbound → c.writeFails = false
  call a c fs := c.loopAlive → c.hasInbound →
    (c.closed = false → a.closes c → if a.fires c then .checkClosed ∈ fs else .timeout ∈ fs) ∧
      ∀ ev i j, a = .fire ev i → ev ≠ .removed → Conn.nextInbound c.pipeline (i + 1) = some j →
        ev = .readComplete ∨ ev = .read ∧ c.Receptive j
  drop c _ fs' := c.hasInbound → c.listed → c.closed → RemovalPending fs'

namespace Conn

/-- System calls are not seen by handlers. -/
theorem seen_of_log {c c' : Conn} {fd : Option ℕ} {calls : List Syscall}
    (h : c'.log = c.log ++ calls.map (LogEntry.sys · fd)) (i : ℕ) : c'.seen i = c.seen i := by
  have hnone : (calls.map (LogEntry.sys · fd)).filterMap (LogEntry.seenBy i) = [] := by
    simp [LogEntry.seenBy]
  simp only [Conn.seen, h, List.filterMap_append, hnone, List.append_nil]

theorem Calls.seen {c c' : Conn} (h : Calls c c') (i : ℕ) : c'.seen i = c.seen i := by
  obtain ⟨calls, -, hlog⟩ := h
  exact seen_of_log hlog i

theorem visit_seen (c : Conn) (ev : LifeEvent) (k : ℕ) (h : HandlerEntry) (i : ℕ) :
    (c.visit ev k h).seen i =
      c.seen i ++
        if k = i ∧ ev ≠ .readComplete ∧ (h.inbound ∨ ev = .removed) then [ev] else [] := by
  unfold seen
  rw [c.visit_log, List.filterMap_append]
  congr 1
  by_cases hinbound : h.inbound ∨ ev = .removed
  · by_cases hk : k = i ∧ ev ≠ .readComplete
    · simp [hinbound, LogEntry.seenBy, hk]
    · simp [hinbound, LogEntry.seenBy, hk]
  · simp [hinbound]

end Conn

/-! ### What frames owe -/

/-- Functions that have not begun. -/
def Frame.waiting : Frame → Bool
  | .setup _ _ _ | .onRead _ | .onWrite | .onError | .workerGone | .release => true
  | _ => false

/-- Frames with a part in the lifecycle. -/
def Frame.owing : Frame → Bool
  | .deliver .readComplete _ => false
  | f => !f.waiting

def owing (fs : List Frame) : List Frame := fs.filter Frame.owing

/-- What handler `i` will see by the frame. -/
def Frame.owes (closed : Bool) (i : ℕ) : Frame → List LifeEvent
  | .deliver .readComplete _ => []
  | .deliver ev k => if k ≤ i then [ev] else []
  | .activate => [.active]
  | .checkClosed => if closed then [.unregistered, .removed] else []
  | .timeout => ending
  | .removeConn => [.unregistered, .removed]
  | .closeChannel => [.removed]
  | _ => []

def owes (closed : Bool) (i : ℕ) (fs : List Frame) : List LifeEvent :=
  fs.flatMap (Frame.owes closed i)

/-- The frames with a part in the lifecycle, depending on whether the connection is in
`connections_`, is closed, and has its pipeline cleared. -/
inductive Phase : Bool → Bool → Bool → List Frame → Prop
  | registering (k : ℕ) : Phase false false false [.deliver .registered k, .activate]
  | registered : Phase false false false [.activate]
  | activating (k : ℕ) : Phase false false false [.deliver .active k, .add]
  | active : Phase false false false [.add]
  | isOpen : Phase true false false []
  | reading (closed : Bool) : Phase true closed false [.checkClosed]
  | timedOut (closed : Bool) : Phase true closed false [.timeout]
  | closing (k : ℕ) : Phase true true false [.deliver .inactive k, .checkClosed]
  | ending (k : ℕ) : Phase true true false [.deliver .inactive k, .removeConn]
  | ended : Phase true true false [.removeConn]
  | leaving (k : ℕ) : Phase true true false [.deliver .unregistered k, .closeChannel]
  | left : Phase true true false [.closeChannel]
  | removing (k : ℕ) : Phase false true false [.deliver .removed k]
  | gone (cleared : Bool) : Phase false true cleared []

/-- What the inbound handlers have seen and are owed is a lifecycle. -/
structure Living (c : Conn) (fs : List Frame) : Prop where
  phase : Phase c.listed c.closed c.cleared fs
  order : ∀ i h, c.handlers[i]? = some h → h.inbound →
    ∃ reads, c.seen i ++ owes c.closed i fs = course reads (c.closed || decide (.timeout ∈ fs))

/-- An exception has kept some handlers from seeing that they were removed. -/
structure Interrupted (c : Conn) (fs : List Frame) : Prop where
  frames : fs = []
  out : c.listed = false
  isClosed : c.closed = true
  cleared : c.cleared = false
  order : ∀ i h, c.handlers[i]? = some h → h.inbound →
    ∃ reads, c.seen i = lifecycle reads ∨ c.seen i ++ [.removed] = lifecycle reads

/-- A connection that is not set up. -/
structure Fresh (c : Conn) (fs : List Frame) : Prop where
  stage : c.stage = .unborn
  handlers : c.handlers = []
  out : c.listed = false
  isOpen : c.closed = false
  cleared : c.cleared = false
  frames : fs = []
  seen : ∀ i, c.seen i = []

/-- Below a function that has not begun there are only such functions. -/
structure Tracked (c : Conn) (fs : List Frame) : Prop where
  sorted : fs.Pairwise fun f g => f.waiting → g.waiting
  cases : Fresh c (owing fs) ∨
    c.stage ≠ .unborn ∧ (c.hasInbound → Living c (owing fs) ∨ Interrupted c (owing fs))

theorem tracked_new (socket : Socket) : Tracked { socket := socket } [] :=
  ⟨.nil, .inl ⟨rfl, rfl, rfl, rfl, rfl, rfl, fun _ => rfl⟩⟩

/-! ### Frames come and go -/

theorem owing_cons {f : Frame} (hf : f.owing) (fs : List Frame) :
    owing (f :: fs) = f :: owing fs := by
  simp [owing, hf]

theorem owing_cons_of_not {f : Frame} (hf : ¬ f.owing) (fs : List Frame) :
    owing (f :: fs) = owing fs := by
  simp [owing, hf]

theorem Frame.not_owing_of_waiting {f : Frame} (hf : f.waiting) : ¬ f.owing := by
  cases f with
  | deliver ev i => cases hf
  | _ => simp [owing, hf]

theorem owing_of_waiting {fs : List Frame} (h : ∀ f ∈ fs, f.waiting) : owing fs = [] := by
  simp only [owing, List.filter_eq_nil_iff]
  exact fun f hf => Frame.not_owing_of_waiting (h f hf)

theorem mem_owing {f : Frame} {fs : List Frame} (hf : f.owing) : f ∈ owing fs ↔ f ∈ fs := by
  simp [owing, hf]

theorem hasInbound_of {c : Conn} {i : ℕ} {h : HandlerEntry} (hget : c.handlers[i]? = some h)
    (hinbound : h.inbound) : c.hasInbound := by
  rw [Conn.hasInbound, List.any_eq_true]
  exact ⟨h, List.mem_of_getElem? hget, hinbound⟩

/-- A function that has begun may be above any other. -/
theorem sorted_cons {f : Frame} {fs : List Frame} (hf : ¬ f.waiting)
    (h : fs.Pairwise fun f g => f.waiting → g.waiting) :
    (f :: fs).Pairwise fun f g => f.waiting → g.waiting :=
  List.pairwise_cons.mpr ⟨fun _ _ hw => absurd hw hf, h⟩

theorem sorted_cons_cons {f g : Frame} {fs : List Frame} (hf : ¬ f.waiting) (hg : ¬ g.waiting)
    (h : fs.Pairwise fun f g => f.waiting → g.waiting) :
    (f :: g :: fs).Pairwise fun f g => f.waiting → g.waiting :=
  sorted_cons hf (sorted_cons hg h)

/-- A frame that has a part in the lifecycle gives way to others. -/
theorem Tracked.replace {c c' : Conn} {f : Frame} {fs gs : List Frame} (h : Tracked c (f :: fs))
    (hf : f.owing) (hstage : c'.stage = c.stage) (hhandlers : c'.handlers = c.handlers)
    (hgs : ∀ g ∈ gs, ¬ g.waiting)
    (hliving : Living c (f :: owing fs) → Living c' (owing gs ++ owing fs)) :
    Tracked c' (gs ++ fs) where
  sorted := by
    rw [List.pairwise_append]
    refine ⟨?_, (List.pairwise_cons.mp h.sorted).2, fun g hg _ _ hw => absurd hw (hgs g hg)⟩
    exact List.pairwise_of_forall_mem_list fun g hg _ _ hw => absurd hw (hgs g hg)
  cases := by
    have hcases := h.cases
    rw [owing_cons hf] at hcases
    rcases hcases with h | ⟨hborn, h⟩
    · exact absurd h.frames (by simp)
    · refine .inr ⟨by rwa [hstage], fun hin => ?_⟩
      rw [Conn.hasInbound, hhandlers] at hin
      rcases h hin with h | h
      · exact .inl (by simpa [owing] using hliving h)
      · exact absurd h.frames (by simp)

/-- A function that has not begun is the last to have a part in the lifecycle. -/
theorem Tracked.waiting {c : Conn} {f : Frame} {fs : List Frame} (h : Tracked c (f :: fs))
    (hf : f.waiting) : Tracked c fs ∧ owing fs = [] := by
  have hsorted := List.pairwise_cons.mp h.sorted
  have hnil : owing fs = [] := owing_of_waiting fun g hg => hsorted.1 g hg hf
  refine ⟨⟨hsorted.2, ?_⟩, hnil⟩
  rw [← owing_cons_of_not (Frame.not_owing_of_waiting hf)]
  exact h.cases

/-! ### Handlers see events -/

/-- A handler that is receptive has seen all but the end. -/
theorem course_of_receptive {saw owed : List LifeEvent} {reads : ℕ} {ended : Bool}
    (h : saw ++ owed = course reads ended) (hactive : .active ∈ saw) (hinactive : .inactive ∉ saw)
    (hread : .read ∉ owed) : saw = course reads false ∧ owed = if ended then ending else [] := by
  rcases List.append_eq_append_iff.mp h with ⟨rest, hsaw, howed⟩ | ⟨more, hsaw, hend⟩
  · match saw, hactive, hsaw with
    | [x], hactive, hsaw =>
      obtain rfl := List.mem_singleton.mp hactive
      cases (List.cons.inj hsaw).1
    | x :: y :: saw, _, hsaw =>
      have htail : List.replicate reads .read = saw ++ rest :=
        (List.cons.inj (List.cons.inj hsaw).2).2
      have hnil : rest = [] := by
        refine List.eq_nil_iff_forall_not_mem.mpr fun ev hev => hread ?_
        have hmem : ev ∈ List.replicate reads LifeEvent.read := by
          rw [htail]
          exact List.mem_append_right _ hev
        rw [← (List.mem_replicate.mp hmem).2, howed]
        exact List.mem_append_left _ hev
      subst hnil
      simp only [List.append_nil] at hsaw
      exact ⟨by simp [course, hsaw], howed⟩
  · have hnil : more = [] := by
      match more, ended, hend with
      | [], _, _ => rfl
      | x :: more, true, hend =>
        obtain rfl := (List.cons.inj hend).1
        exact absurd (by simp [hsaw]) hinactive
    subst hnil
    exact ⟨by simpa [course] using hsaw, hend.symm⟩

theorem read_notMem_owes {l closed cleared : Bool} {fs : List Frame}
    (h : Phase l closed cleared fs) (i : ℕ) : .read ∉ owes closed i fs := by
  cases h <;> simp [owes, Frame.owes, ending]

theorem course_concat_read (reads : ℕ) :
    course reads false ++ [.read] = course (reads + 1) false := by
  simp [course, List.replicate_succ']

theorem course_append_ending (reads : ℕ) (ended : Bool) :
    course reads false ++ (if ended then ending else []) = course reads ended := by
  cases ended <;> simp [course]

/-- Receptive handlers of the connection have been given a read, if anything has happened. -/
structure Reads (c c' : Conn) : Prop where
  status : c'.status = c.status
  seen : ∀ i, c'.seen i = c.seen i ∨ c'.seen i = c.seen i ++ [.read] ∧ c.Receptive i

/-- The fields that the invariant speaks of are the same, but for the stage and the log. -/
structure Alike (c c' : Conn) : Prop where
  handlers : c'.handlers = c.handlers
  listed : c'.listed = c.listed
  closed : c'.closed = c.closed
  cleared : c'.cleared = c.cleared

theorem Alike.of_status {c c' : Conn} (h : c'.status = c.status) : Alike c c' :=
  ⟨congrArg Status.handlers h, congrArg Status.listed h, congrArg Status.closed h,
    congrArg Status.cleared h⟩

theorem Alike.hasInbound {c c' : Conn} (h : Alike c c') : c'.hasInbound = c.hasInbound := by
  rw [Conn.hasInbound, Conn.hasInbound, h.handlers]

theorem Alike.phase {c c' : Conn} (h : Alike c c') {fs : List Frame}
    (hphase : Phase c.listed c.closed c.cleared fs) :
    Phase c'.listed c'.closed c'.cleared fs := by
  rw [h.listed, h.closed, h.cleared]
  exact hphase

theorem Living.reads {c c' : Conn} {fs : List Frame} (h : Living c fs) (halike : Alike c c')
    (hseen : ∀ i, c'.seen i = c.seen i ∨ c'.seen i = c.seen i ++ [.read] ∧ c.Receptive i) :
    Living c' fs := by
  refine ⟨halike.phase h.phase, fun i entry hget hinbound => ?_⟩
  rw [halike.handlers] at hget
  rw [halike.closed]
  obtain ⟨reads, horder⟩ := h.order i entry hget hinbound
  rcases hseen i with hsame | ⟨hread, hactive, hinactive⟩
  · exact ⟨reads, by rw [hsame]; exact horder⟩
  · obtain ⟨hsaw, howed⟩ :=
      course_of_receptive horder hactive hinactive (read_notMem_owes h.phase i)
    refine ⟨reads + 1, ?_⟩
    rw [hread, hsaw, howed, course_concat_read, course_append_ending]

theorem Interrupted.reads {c c' : Conn} {fs : List Frame} (h : Interrupted c fs)
    (halike : Alike c c')
    (hseen : ∀ i, c'.seen i = c.seen i ∨ c'.seen i = c.seen i ++ [.read] ∧ c.Receptive i) :
    Interrupted c' fs := by
  refine ⟨h.frames, halike.listed.trans h.out, halike.closed.trans h.isClosed,
    halike.cleared.trans h.cleared, fun i entry hget hinbound => ?_⟩
  rw [halike.handlers] at hget
  rcases hseen i with hsame | ⟨-, -, hinactive⟩
  · rw [hsame]
    exact h.order i entry hget hinbound
  · obtain ⟨reads, heq | heq⟩ := h.order i entry hget hinbound
    · exact absurd (by simp [heq, lifecycle, course, ending]) hinactive
    · have hmem : LifeEvent.inactive ∈ c.seen i ++ [.removed] := by
        simp [heq, lifecycle, course, ending]
      exact absurd (by simpa using hmem) hinactive

/-- Once a connection is set up, a change of its stage does not matter. -/
theorem Tracked.reads_of_born {c c' : Conn} {fs : List Frame} (h : Tracked c fs)
    (hborn : c.stage ≠ .unborn) (hborn' : c'.stage ≠ .unborn) (halike : Alike c c')
    (hseen : ∀ i, c'.seen i = c.seen i ∨ c'.seen i = c.seen i ++ [.read] ∧ c.Receptive i) :
    Tracked c' fs where
  sorted := h.sorted
  cases := by
    rcases h.cases with h | ⟨-, h⟩
    · exact absurd h.stage hborn
    · refine .inr ⟨hborn', fun hin => ?_⟩
      rw [halike.hasInbound] at hin
      rcases h hin with h | h
      · exact .inl (h.reads halike hseen)
      · exact .inr (h.reads halike hseen)

theorem Tracked.reads {c c' : Conn} {fs : List Frame} (h : Tracked c fs) (hreads : Reads c c') :
    Tracked c' fs := by
  have hstage : c'.stage = c.stage := congrArg Status.stage hreads.status
  have halike := Alike.of_status hreads.status
  rcases h.cases with hfresh | ⟨hborn, -⟩
  · refine ⟨h.sorted, .inl ⟨hstage.trans hfresh.stage, halike.handlers.trans hfresh.handlers,
      halike.listed.trans hfresh.out, halike.closed.trans hfresh.isOpen,
      halike.cleared.trans hfresh.cleared, hfresh.frames, fun i => ?_⟩⟩
    rcases hreads.seen i with hsame | ⟨-, hactive, -⟩
    · exact hsame.trans (hfresh.seen i)
    · rw [hfresh.seen i] at hactive
      cases hactive
  · exact h.reads_of_born hborn (by rwa [hstage]) halike hreads.seen

theorem Tracked.congr {c c' : Conn} {fs : List Frame} (h : Tracked c fs)
    (hstatus : c'.status = c.status) (hseen : ∀ i, c'.seen i = c.seen i) : Tracked c' fs :=
  h.reads ⟨hstatus, fun i => .inl (hseen i)⟩

/-- What becomes of the handlers of an open connection is not decided yet. -/
theorem Tracked.living {c : Conn} {fs : List Frame} (h : Tracked c fs) (halive : c.stage = .alive)
    (hopen : c.closed = false) (hin : c.hasInbound) : Living c (owing fs) := by
  rcases h.cases with hfresh | ⟨-, hcases⟩
  · rw [hfresh.stage] at halive
    cases halive
  · rcases hcases hin with hliving | hinterrupted
    · exact hliving
    · rw [hinterrupted.isClosed] at hopen
      cases hopen

end XNetty.Event
