import XNetty.Event.SpscQueue
import XNetty.Lib.Ledger

/-!
# Waking the loop

A thread that calls `EventLoop::queueInLoop` enqueues, tests whether to wake, exchanges
`wakeupSent_` and writes the pipe; the loop clears the flag in each round before it drains its
containers. The test asks whether the caller is the thread that constructed the loop, which for
the workers of `EventLoopGroup::start` is the thread that called `start`.

## Main definitions

* `Wakeup` — the containers, the flag, the pipe, and where every thread is.
* `Wakeup.NoLostWakeup` — a loop blocked in `poll` with work waiting is going to be woken.
* `Wakeup.WakesInTime` — the condition on a call that decides not to wake.
-/

namespace XNetty.Event

/-- Where a call of `queueInLoop` is, with the number of the call. -/
inductive CallPoint where
  | enqueued (call : ℕ)
  /-- The test said to wake. -/
  | waking (call : ℕ)
  /-- `wakeupSent_` was exchanged and had been false. -/
  | writing (call : ℕ)
  deriving DecidableEq

/-- The call that is at a point. -/
def CallPoint.call : CallPoint → ℕ
  | .enqueued call | .waking call | .writing call => call

/-- Where the loop is in its `while`. -/
inductive LoopPoint where
  | top
  | polling
  /-- `poll` returned, with the event of the wakeup channel or without. -/
  | polled (wakeup : Bool)
  | handled
  | cleared
  | ringDrained
  | drained
  | calling
  deriving DecidableEq

/-- The loop has drained its ring since `poll` returned, or is back at `poll`. -/
def LoopPoint.ringDone : LoopPoint → Bool
  | .polled _ | .handled | .cleared => false
  | _ => true

/-- The same of `pendingFunctors_`. -/
def LoopPoint.listDone : LoopPoint → Bool
  | .polled _ | .handled | .cleared | .ringDrained => false
  | _ => true

/-- The loop has not read the pipe since it cleared the flag. -/
def LoopPoint.unread : LoopPoint → Bool
  | .polled _ | .handled => false
  | _ => true

/-- A caller takes its next step, or the loop does; where the loop is in `poll`, it returns with
the event of the wakeup channel or without. -/
inductive WakeupStep (ι : Type*) where
  | caller (i : ι)
  | loop (wakeup : Bool)

/-- A loop whose functors are numbered by the calls that queue them. -/
structure Wakeup (ι : Type*) where
  lfBuffer : SpscQueue ℕ
  pendingFunctors : List ℕ := []
  wakeupSent : Bool := false
  callingPendingFunctors : Bool := false
  /-- The unread writes in the pipe. -/
  pipe : ℕ := 0
  loop : LoopPoint := .top
  calls : ι → Option CallPoint := fun _ => none
  nextCall : ℕ := 0

namespace Wakeup

variable {ι : Type*} [DecidableEq ι] (threadId : ι) (capacity : ℕ)

def goTo (s : Wakeup ι) (i : ι) (point : Option CallPoint) : Wakeup ι :=
  { s with calls := Function.update s.calls i point }

/-- The functor goes into the ring, and into the list when the ring refuses it. -/
def enqueue (s : Wakeup ι) : Wakeup ι :=
  let pushed := s.lfBuffer.push (some s.nextCall)
  { s with
    lfBuffer := pushed.1
    pendingFunctors := if pushed.2 then s.pendingFunctors else s.pendingFunctors ++ [s.nextCall]
    nextCall := s.nextCall + 1 }

/-- The next step of `queueInLoop` in thread `i`, which is not the thread of the loop. -/
def callStep (s : Wakeup ι) (i : ι) : Wakeup ι :=
  match s.calls i with
  | none => s.enqueue.goTo i (some (.enqueued s.nextCall))
  | some (.enqueued call) =>
    if i ≠ threadId ∨ s.callingPendingFunctors then s.goTo i (some (.waking call))
    else s.goTo i none
  | some (.waking call) =>
    if s.wakeupSent then s.goTo i none
    else { s with wakeupSent := true }.goTo i (some (.writing call))
  | some (.writing _) =>
    -- the pipe does not block: a write to a full one is dropped
    { s with pipe := if s.pipe < capacity then s.pipe + 1 else s.pipe }.goTo i none

/-- The next step of `EventLoop::loop`. -/
def loopStep (s : Wakeup ι) (wakeup : Bool) : Wakeup ι :=
  match s.loop with
  | .top => { s with loop := .polling }
  | .polling => { s with loop := .polled wakeup }
  | .polled wakeup => { s with pipe := if wakeup then s.pipe - 1 else s.pipe, loop := .handled }
  | .handled => { s with wakeupSent := false, loop := .cleared }
  | .cleared => { s with lfBuffer := s.lfBuffer.popAll.1, loop := .ringDrained }
  | .ringDrained => { s with pendingFunctors := [], loop := .drained }
  | .drained => { s with callingPendingFunctors := true, loop := .calling }
  | .calling => { s with callingPendingFunctors := false, loop := .top }

def step (s : Wakeup ι) : WakeupStep ι → Wakeup ι
  | .caller i => s.callStep threadId capacity i
  | .loop wakeup => s.loopStep wakeup

def run (s : Wakeup ι) (steps : List (WakeupStep ι)) : Wakeup ι :=
  steps.foldl (step threadId capacity) s

/-- A loop before its first `poll`. -/
def start (ι : Type*) (q : SpscQueue ℕ) : Wakeup ι := { lfBuffer := q }

/-- A call has exchanged the flag and not yet written the pipe. -/
def Writing (s : Wakeup ι) : Prop := ∃ i call, s.calls i = some (.writing call)

/-- While the loop is blocked in `poll` and the functor of a completed call waits, the pipe has
an unread byte or is about to get one. -/
def NoLostWakeup (s : Wakeup ι) : Prop :=
  s.loop = .polling → ∀ call, some call ∈ s.lfBuffer.popAll.2 ∨ call ∈ s.pendingFunctors →
    (∀ i point, s.calls i = some point → point.call ≠ call) → 0 < s.pipe ∨ s.Writing

/-- The functor stays queued until after the next `poll`. -/
def Stranded (s : Wakeup ι) (call : ℕ) : Prop :=
  s.loop.ringDone = true ∧ some call ∈ s.lfBuffer.popAll.2 ∨
    s.loop.listDone = true ∧ call ∈ s.pendingFunctors

/-- A call whose test decides not to wake finds `wakeupSent_` set, or its functor taken or about
to be. -/
def WakesInTime (s : Wakeup ι) : WakeupStep ι → Prop
  | .caller i => ∀ call, s.calls i = some (.enqueued call) →
    i = threadId → s.callingPendingFunctors = false → s.wakeupSent = true ∨ ¬ s.Stranded call
  | .loop _ => True

/-! ### What is announced -/

/-- The flag is set, or the call that queued the functor will exchange it. -/
def Announced (s : Wakeup ι) (call : ℕ) : Prop :=
  s.wakeupSent = true ∨ ∃ i, s.calls i = some (.enqueued call) ∨ s.calls i = some (.waking call)

/-- Whatever waits until after the next `poll` is announced, and while the flag is set the pipe
is not empty for long. -/
structure Awake (s : Wakeup ι) (lo : ℕ) (items : List ℕ) : Prop where
  keeps : s.lfBuffer.Keeps lo (items.map some)
  ring : s.loop.ringDone = true → ∀ call ∈ items, s.Announced call
  list : s.loop.listDone = true → ∀ call ∈ s.pendingFunctors, s.Announced call
  flag : s.loop.unread = true → s.wakeupSent = true → 0 < s.pipe ∨ s.Writing

omit [DecidableEq ι] in
theorem awake_start {n : ℕ} {q : SpscQueue ℕ} (hq : SpscQueue.new n = some q) :
    (start ι q).Awake 0 [] where
  keeps := SpscQueue.new_keeps hq
  ring := fun _ _ h => absurd h List.not_mem_nil
  list := fun _ _ h => absurd h List.not_mem_nil
  flag := fun _ h => Bool.noConfusion h

variable {s : Wakeup ι} {lo : ℕ} {items : List ℕ}

omit [DecidableEq ι] in
theorem Awake.mem_ring (h : s.Awake lo items) {call : ℕ} :
    some call ∈ s.lfBuffer.popAll.2 ↔ call ∈ items := by
  rw [h.keeps.popAll.1, List.mem_map]
  simp

omit [DecidableEq ι] in
/-- **Announced work wakes the loop.** -/
theorem Awake.noLostWakeup (h : s.Awake lo items) : s.NoLostWakeup := by
  intro hpolling call hwaits hdone
  have hannounced : s.Announced call := by
    rcases hwaits with hwaits | hwaits
    · exact h.ring (by rw [hpolling]; rfl) call (h.mem_ring.mp hwaits)
    · exact h.list (by rw [hpolling]; rfl) call hwaits
  rcases hannounced with hflag | ⟨i, hi | hi⟩
  · exact h.flag (by rw [hpolling]; rfl) hflag
  · exact absurd rfl (hdone i _ hi)
  · exact absurd rfl (hdone i _ hi)

/-! ### Steps of the callers -/

theorem Announced.goTo {call : ℕ} (h : s.Announced call) {i : ι} (point : Option CallPoint)
    (henqueued : s.calls i ≠ some (.enqueued call)) (hwaking : s.calls i ≠ some (.waking call)) :
    (s.goTo i point).Announced call := by
  rcases h with hflag | ⟨j, hj⟩
  · exact .inl hflag
  · have hne : j ≠ i := by
      rintro rfl
      exact hj.elim henqueued hwaking
    refine .inr ⟨j, ?_⟩
    change Function.update s.calls i point j = _ ∨ Function.update s.calls i point j = _
    rw [Function.update_of_ne hne]
    exact hj

theorem Writing.goTo (h : s.Writing) {i : ι} (point : Option CallPoint)
    (hwriting : ∀ call, s.calls i ≠ some (.writing call)) : (s.goTo i point).Writing := by
  obtain ⟨j, call, hj⟩ := h
  have hne : j ≠ i := by
    rintro rfl
    exact hwriting call hj
  exact ⟨j, call, (Function.update_of_ne hne _ _).trans hj⟩

theorem goTo_self (s : Wakeup ι) (i : ι) (point : Option CallPoint) :
    (s.goTo i point).calls i = point := Function.update_self ..

/-- A step of a caller within its call: what it does to the announcements and to the pipe. -/
theorem Awake.goTo (h : s.Awake lo items) (i : ι) (point : Option CallPoint)
    (hannounced : ∀ call, s.Announced call →
      (s.loop.ringDone = true ∧ call ∈ items ∨
        s.loop.listDone = true ∧ call ∈ s.pendingFunctors) → (s.goTo i point).Announced call)
    (hwriting : ∀ call, s.calls i ≠ some (.writing call)) : (s.goTo i point).Awake lo items where
  keeps := h.keeps
  ring := fun hdone call hmem => hannounced call (h.ring hdone call hmem) (.inl ⟨hdone, hmem⟩)
  list := fun hdone call hmem => hannounced call (h.list hdone call hmem) (.inr ⟨hdone, hmem⟩)
  flag := fun hunread hflag => (h.flag hunread hflag).imp_right (·.goTo point hwriting)

omit [DecidableEq ι] in
theorem Awake.enqueue (h : s.Awake lo items) (hnew : s.Announced s.nextCall) :
    ∃ items', s.enqueue.Awake lo items' := by
  have hroom := h.keeps.room
  rcases Nat.lt_or_eq_of_le (Nat.succ_le_of_lt hroom) with hlt | hfull
  · obtain ⟨hpushed, hkeeps, -⟩ := h.keeps.push hlt (some s.nextCall)
    refine ⟨items ++ [s.nextCall], by rw [List.map_append]; exact hkeeps, ?_, ?_, h.flag⟩
    · intro hdone call hmem
      rcases List.mem_append.mp hmem with hmem | hmem
      · exact h.ring hdone call hmem
      · exact List.mem_singleton.mp hmem ▸ hnew
    · intro hdone call hmem
      rw [show s.enqueue.pendingFunctors = s.pendingFunctors from if_pos hpushed] at hmem
      exact h.list hdone call hmem
  · have hpush := h.keeps.push_full hfull (some s.nextCall)
    have hbuffer : s.enqueue.lfBuffer = s.lfBuffer := congrArg Prod.fst hpush
    have hlist : s.enqueue.pendingFunctors = s.pendingFunctors ++ [s.nextCall] :=
      if_neg (by rw [hpush]; exact Bool.false_ne_true)
    refine ⟨items, hbuffer ▸ h.keeps, h.ring, ?_, h.flag⟩
    intro hdone call hmem
    rw [hlist] at hmem
    rcases List.mem_append.mp hmem with hmem | hmem
    · exact h.list hdone call hmem
    · exact List.mem_singleton.mp hmem ▸ hnew

theorem Awake.callStep (hcapacity : 0 < capacity) (h : s.Awake lo items) {i : ι}
    (hintime : s.WakesInTime threadId (.caller i)) :
    ∃ items', (s.callStep threadId capacity i).Awake lo items' := by
  unfold Wakeup.callStep
  cases hi : s.calls i with
  | none =>
    have hgone : (s.goTo i (some (.enqueued s.nextCall))).Awake lo items :=
      h.goTo i _ (fun call hcall _ => hcall.goTo _ (by simp [hi]) (by simp [hi])) (by simp [hi])
    exact hgone.enqueue (.inr ⟨i, .inl (goTo_self ..)⟩)
  | some point =>
    cases point with
    | enqueued call =>
      have hothers {call' : ℕ} (hne : call' ≠ call) (hcall : s.Announced call')
          (point : Option CallPoint) : (s.goTo i point).Announced call' :=
        hcall.goTo _ (by simpa [hi] using hne.symm) (by simp [hi])
      dsimp only
      split
      · refine ⟨items, h.goTo i _ (fun call' hcall _ => ?_) (by simp [hi])⟩
        by_cases heq : call' = call
        · subst heq
          exact .inr ⟨i, .inr (goTo_self ..)⟩
        · exact hothers heq hcall _
      · rename_i hsilent
        obtain ⟨hthread, hcalling⟩ := not_or.mp hsilent
        refine ⟨items, h.goTo i _ (fun call' hcall hstays => ?_) (by simp [hi])⟩
        by_cases heq : call' = call
        · -- the functor that nobody announces any more is not left behind
          subst heq
          have hstranded : s.Stranded call' :=
            hstays.imp_left fun hring => ⟨hring.1, h.mem_ring.mpr hring.2⟩
          rcases hintime call' hi (not_not.mp hthread) (Bool.eq_false_of_not_eq_true hcalling)
            with hflag | htaken
          · exact .inl hflag
          · exact absurd hstranded htaken
        · exact hothers heq hcall _
    | waking call =>
      dsimp only
      split
      · rename_i hflag
        exact ⟨items, h.goTo i _ (fun call' _ _ => .inl hflag) (by simp [hi])⟩
      · exact ⟨items, h.keeps, fun _ _ _ => .inl rfl, fun _ _ _ => .inl rfl,
          fun _ _ => .inr ⟨i, call, goTo_self ..⟩⟩
    | writing call =>
      have hpipe : 0 < if s.pipe < capacity then s.pipe + 1 else s.pipe := by
        split <;> omega
      have hkept (call' : ℕ) (hcall : s.Announced call') :
          (s.goTo i none).Announced call' :=
        hcall.goTo none (by simp [hi]) (by simp [hi])
      exact ⟨items, h.keeps, fun hdone call' hmem => hkept call' (h.ring hdone call' hmem),
        fun hdone call' hmem => hkept call' (h.list hdone call' hmem), fun _ _ => .inl hpipe⟩

/-! ### Steps of the loop -/

omit [DecidableEq ι] in
theorem Awake.loopStep (h : s.Awake lo items) (wakeup : Bool) :
    ∃ lo' items', (s.loopStep wakeup).Awake lo' items' := by
  unfold Wakeup.loopStep
  cases hloop : s.loop with
  | top =>
    obtain ⟨hkeeps, hring, hlist, hflag⟩ := h
    rw [hloop] at hring hlist hflag
    exact ⟨lo, items, hkeeps, hring, hlist, hflag⟩
  | polling =>
    exact ⟨lo, items, h.keeps, fun hdone => Bool.noConfusion hdone,
      fun hdone => Bool.noConfusion hdone, fun hunread => Bool.noConfusion hunread⟩
  | polled wakeup =>
    exact ⟨lo, items, h.keeps, fun hdone => Bool.noConfusion hdone,
      fun hdone => Bool.noConfusion hdone, fun hunread => Bool.noConfusion hunread⟩
  | handled =>
    exact ⟨lo, items, h.keeps, fun hdone => Bool.noConfusion hdone,
      fun hdone => Bool.noConfusion hdone, fun _ hflag => Bool.noConfusion hflag⟩
  | cleared =>
    have hflag := h.flag
    rw [hloop] at hflag
    refine ⟨_, [], h.keeps.popAll.2.1, fun _ call hmem => absurd hmem List.not_mem_nil,
      fun hdone => Bool.noConfusion hdone, hflag⟩
  | ringDrained =>
    have hring := h.ring
    have hflag := h.flag
    rw [hloop] at hring hflag
    exact ⟨lo, items, h.keeps, hring, fun _ call hmem => absurd hmem List.not_mem_nil, hflag⟩
  | drained =>
    obtain ⟨hkeeps, hring, hlist, hflag⟩ := h
    rw [hloop] at hring hlist hflag
    exact ⟨lo, items, hkeeps, hring, hlist, hflag⟩
  | calling =>
    obtain ⟨hkeeps, hring, hlist, hflag⟩ := h
    rw [hloop] at hring hlist hflag
    exact ⟨lo, items, hkeeps, hring, hlist, hflag⟩

/-- **No wakeup is lost** in a run in which every call that decides not to wake does so in time:
whatever the other threads do, and wherever the loop is. -/
theorem run_noLostWakeup (threadId : ι) {capacity : ℕ} (hcapacity : 0 < capacity) {n : ℕ}
    {q : SpscQueue ℕ} (hq : SpscQueue.new n = some q) {steps : List (WakeupStep ι)}
    (hintime : Ledger.Along (step threadId capacity) (WakesInTime threadId) (start ι q) steps) :
    ((start ι q).run threadId capacity steps).NoLostWakeup := by
  obtain ⟨lo, items, h⟩ := hintime.preserves (fun s => ∃ lo items, s.Awake lo items)
    (fun s st ⟨lo, items, h⟩ hst => by
      cases st with
      | caller i =>
        obtain ⟨items', h'⟩ := h.callStep threadId capacity hcapacity hst
        exact ⟨lo, items', h'⟩
      | loop wakeup => exact h.loopStep wakeup)
    ⟨0, [], awake_start hq⟩
  exact h.noLostWakeup

/-- The constructing thread is `false`. It queues between the return of `poll` and the drains,
and the other thread queues while the loop is blocked. -/
theorem run_noLostWakeup_inTime :
    ((start Bool (.smallest ℕ)).run false 8192
        [.loop false, .loop false, .caller false, .caller false]).NoLostWakeup ∧
      ((start Bool (.smallest ℕ)).run false 8192
        [.loop false, .caller true, .caller true]).NoLostWakeup := by
  constructor
  · refine run_noLostWakeup false (by decide) (SpscQueue.new_smallest ℕ)
      ⟨trivial, trivial, ?_, ?_, trivial⟩
    · intro call hcall
      cases hcall
    · rintro call - - -
      right
      rintro (⟨hdone, -⟩ | ⟨hdone, -⟩)
      all_goals cases hdone
  · refine run_noLostWakeup false (by decide) (SpscQueue.new_smallest ℕ)
      ⟨trivial, ?_, ?_, trivial⟩
    all_goals
      intro call _ hthread
      cases hthread

/-- The thread that called `start` queues a functor while the loop is blocked: it takes itself
for the loop and leaves the pipe empty. -/
theorem not_noLostWakeup_constructor :
    ¬ ((start Bool (.smallest ℕ)).run false 8192
      [.loop false, .caller false, .caller false]).NoLostWakeup := by
  intro hwoken
  have hidle (i : Bool) : ((start Bool (.smallest ℕ)).run false 8192
      [.loop false, .caller false, .caller false]).calls i = none := by
    cases i <;> rfl
  rcases hwoken rfl 0 (.inl (by decide)) (fun i point hi => by rw [hidle] at hi; cases hi)
    with hpipe | ⟨i, call, hwriting⟩
  · exact absurd hpipe (by decide)
  · rw [hidle] at hwriting
    cases hwriting

end Wakeup

end XNetty.Event
