import XNetty.Event.Poller
import XNetty.Event.Worker
import XNetty.Lib.Ledger

/-!
# The channels of a loop

A channel tells the poller of its loop whenever it changes what it asks for, and gives its
descriptor up before it closes it. So any poller holds, at any time, what the channels ask for and
nothing else, and calls no channel for anything else.

## Main definitions

* `PollLoop` — a loop with its channels.
* `PollLoop.Registered` — the poller holds what the channels ask for.
* `PollLoop.run_polled` — it does so on either system.
-/

namespace XNetty.Event

open Poller (lookup)

variable {ι : Type*}

/-! ## Channels -/

/-- `fd_`, `none` standing for `-1`, and `events_` of a `Channel`. -/
structure ChannelState where
  fd : Option ℕ := none
  events : Interest := {}

structure PollLoop (P ι : Type*) where
  poller : P
  channels : ι → ChannelState := fun _ => {}

/-- A loop on epoll, and one on WSAPoll, before their first channel. -/
def epollLoop (ι : Type*) : PollLoop (EPoller ι) ι := { poller := {} }
def wsaLoop (ι : Type*) : PollLoop (WSPoller ι) ι := { poller := {} }

/-- What becomes of the channels of a loop. -/
inductive ChannelOp (ι : Type*) where
  | new (c : ι) (fd : ℕ)
  | enableReading (c : ι)
  | enableWriting (c : ι)
  | disableReading (c : ι)
  | disableWriting (c : ι)
  | disableAll (c : ι)
  /-- `WorkerEventLoop::removeConn` -/
  | removeConn (c : ι)
  /-- `Channel::~Channel` -/
  | destroy (c : ι)
  deriving DecidableEq

namespace PollLoop

variable {P : Type*} [Poller P ι] [DecidableEq ι] (s : PollLoop P ι) (c : ι)

def setChannel (ch : ChannelState) : PollLoop P ι :=
  { s with channels := Function.update s.channels c ch }

/-- `EventLoop::updateChannel` -/
def updateChannel : PollLoop P ι :=
  match (s.channels c).fd with
  | none => s
  | some fd =>
    { s with
      poller :=
        if (s.channels c).events.isNone then (Poller.del s.poller fd).1
        else (Poller.add s.poller fd ⟨c, (s.channels c).events⟩).1 }

/-- `EventLoop::removeChannel` -/
def removeChannel : PollLoop P ι :=
  match (s.channels c).fd with
  | none => s
  | some fd => { s with poller := (Poller.del s.poller fd).1 }

/-- The events are set, and `update` is called. -/
def setEvents (events : Interest) : PollLoop P ι :=
  (s.setChannel c { s.channels c with events }).updateChannel c

def enableReading : PollLoop P ι := s.setEvents c { (s.channels c).events with read := true }
def enableWriting : PollLoop P ι := s.setEvents c { (s.channels c).events with write := true }
def disableReading : PollLoop P ι := s.setEvents c { (s.channels c).events with read := false }
def disableWriting : PollLoop P ι := s.setEvents c { (s.channels c).events with write := false }
def disableAll : PollLoop P ι := s.setEvents c {}

/-- `::close` of a descriptor and `setFd(-1)` -/
def closeFd (fd : ℕ) : PollLoop P ι :=
  { s with poller := Poller.close s.poller fd }.setChannel c { s.channels c with fd := none }

def removeConn : PollLoop P ι :=
  match (s.channels c).fd with
  | none => s
  | some fd => ((s.disableAll c).removeChannel c).closeFd c fd

def destroy : PollLoop P ι :=
  match (s.channels c).fd with
  | none => s
  | some fd => (s.disableAll c).closeFd c fd

def step (s : PollLoop P ι) : ChannelOp ι → PollLoop P ι
  | .new c fd => s.setChannel c { fd := some fd }
  | .enableReading c => s.enableReading c
  | .enableWriting c => s.enableWriting c
  | .disableReading c => s.disableReading c
  | .disableWriting c => s.disableWriting c
  | .disableAll c => s.disableAll c
  | .removeConn c => s.removeConn c
  | .destroy c => s.destroy c

def run (s : PollLoop P ι) (ops : List (ChannelOp ι)) : PollLoop P ι := ops.foldl step s

/-- The kernel gives a new channel a descriptor that no other one has. -/
def Allowed (s : PollLoop P ι) : ChannelOp ι → Prop
  | .new c fd => (s.channels c).fd = none ∧ ∀ d, (s.channels d).fd ≠ some fd
  | _ => True

instance [Fintype ι] (s : PollLoop P ι) (op : ChannelOp ι) : Decidable (s.Allowed op) :=
  match op with
  | .new _ _ => inferInstanceAs (Decidable (_ ∧ _))
  | .enableReading _ | .enableWriting _ | .disableReading _ | .disableWriting _ | .disableAll _
  | .removeConn _ | .destroy _ => inferInstanceAs (Decidable True)

/-- The poller holds an entry for just the channels that ask for something. -/
structure Registered (s : PollLoop P ι) : Prop where
  held : ∀ fd e, lookup s.poller fd = some e ↔
    s.channels e.ch = ⟨some fd, e.events⟩ ∧ e.events.isNone = false
  alone : ∀ c d fd, (s.channels c).fd = some fd → (s.channels d).fd = some fd → c = d

variable {s c}

/-! ### What the poller is told -/

omit [Poller P ι] in
@[simp] theorem poller_setChannel (ch : ChannelState) : (s.setChannel c ch).poller = s.poller := rfl

omit [Poller P ι] in
@[simp] theorem channels_setChannel (ch : ChannelState) :
    (s.setChannel c ch).channels = Function.update s.channels c ch := rfl

omit [DecidableEq ι] in
theorem channels_updateChannel : (s.updateChannel c).channels = s.channels := by
  unfold updateChannel
  split <;> rfl

@[simp] theorem channels_setEvents (events : Interest) :
    (s.setEvents c events).channels =
      Function.update s.channels c { s.channels c with events } := by
  rw [setEvents, channels_updateChannel, channels_setChannel]

omit [DecidableEq ι] in
@[simp] theorem channels_removeChannel : (s.removeChannel c).channels = s.channels := by
  unfold removeChannel
  split <;> rfl

variable [LawfulPoller P]

omit [DecidableEq ι] in
theorem lookup_updateChannel (fd : ℕ) (hfd : (s.channels c).fd = some fd) :
    lookup (s.updateChannel c).poller = Function.update (lookup s.poller) fd
      (if (s.channels c).events.isNone then none else some ⟨c, (s.channels c).events⟩) := by
  unfold updateChannel
  simp only [hfd]
  split
  · exact LawfulPoller.lookup_del ..
  · exact LawfulPoller.lookup_add ..

/-- **A channel that changes what it asks for.** -/
theorem Registered.setEvents (h : s.Registered) (c : ι) (events : Interest) :
    (s.setEvents c events).Registered where
  held fd e := by
    rw [channels_setEvents]
    cases hfd : (s.channels c).fd with
    | none =>
      have hsame : (s.setEvents c events).poller = s.poller := by
        simp [PollLoop.setEvents, updateChannel, hfd]
      rw [hsame, h.held]
      by_cases hc : e.ch = c
      · rw [hc, Function.update_self]
        refine iff_of_false (fun h => ?_) fun h => ?_
        · simp [h.1] at hfd
        · simp [hfd] at h
      · rw [Function.update_of_ne hc]
    | some n =>
      have hself : (s.setChannel c { s.channels c with events }).channels c = ⟨some n, events⟩ := by
        simp [hfd]
      rw [PollLoop.setEvents, lookup_updateChannel n (by rw [hself])]
      have hheld := h.held fd e
      have halone := h.alone e.ch c fd
      obtain ⟨d, asked⟩ := e
      simp only [hself, poller_setChannel, Function.update_apply]
      by_cases hd : d = c
      · subst hd
        grind
      · grind
  alone := by
    have hsame (d : ι) : ((s.setEvents c events).channels d).fd = (s.channels d).fd := by
      rw [channels_setEvents, Function.update_apply]
      split
      next hd => rw [hd]
      · rfl
    intro d d' fd hd hd'
    rw [hsame] at hd hd'
    exact h.alone d d' fd hd hd'

omit [DecidableEq ι] [LawfulPoller P] in
/-- A channel that asks for nothing has no entry. -/
theorem Registered.lookup_eq_none (h : s.Registered) {ch : ChannelState} {fd : ℕ}
    (hc : s.channels c = ch) (hfd : ch.fd = some fd) (hnone : ch.events.isNone = true) :
    lookup s.poller fd = none := by
  by_contra hsome
  obtain ⟨e, he⟩ := Option.ne_none_iff_exists'.mp hsome
  obtain ⟨hch, hasks⟩ := (h.held fd e).mp he
  have hsame : e.ch = c := h.alone e.ch c fd (by rw [hch]) (by rw [hc, hfd])
  rw [hsame, hc] at hch
  rw [hch, hasks] at hnone
  cases hnone

/-- **A descriptor that is closed** when its channel asks for nothing. -/
theorem Registered.closeFd (h : s.Registered) {fd : ℕ} (hc : s.channels c = ⟨some fd, {}⟩) :
    (s.closeFd c fd).Registered where
  held n e := by
    have hnone := h.lookup_eq_none hc rfl rfl
    have hlookup : lookup (s.closeFd c fd).poller = lookup s.poller :=
      LawfulPoller.lookup_close s.poller fd hnone
    rw [hlookup, h.held]
    change _ ↔ Function.update s.channels c _ e.ch = _ ∧ _
    by_cases he : e.ch = c
    · rw [he, Function.update_self, hc]
      refine iff_of_false (fun h => ?_) fun h => ?_
      · rw [← (ChannelState.mk.inj h.1).2] at h
        cases h.2
      · cases h.1
    · rw [Function.update_of_ne he]
  alone d d' n hd hd' := by
    have hkept (x : ι) (hx : ((s.closeFd c fd).channels x).fd = some n) :
        (s.channels x).fd = some n := by
      change (Function.update s.channels c _ x).fd = some n at hx
      by_cases hxc : x = c
      · rw [hxc, Function.update_self] at hx
        cases hx
      · rwa [Function.update_of_ne hxc] at hx
    exact h.alone d d' n (hkept d hd) (hkept d' hd')

omit [DecidableEq ι] in
theorem Registered.removeChannel (h : s.Registered) {fd : ℕ} (hc : s.channels c = ⟨some fd, {}⟩) :
    (s.removeChannel c).Registered := by
  have hnone := h.lookup_eq_none hc rfl rfl
  have hlookup : lookup (s.removeChannel c).poller = lookup s.poller := by
    simp only [PollLoop.removeChannel, hc]
    rw [LawfulPoller.lookup_del, Function.update_eq_self_iff, hnone]
  exact ⟨by rw [hlookup, channels_removeChannel]; exact h.held,
    by rw [channels_removeChannel]; exact h.alone⟩

omit [LawfulPoller P] in
theorem Registered.new (h : s.Registered) {fd : ℕ} (hc : (s.channels c).fd = none)
    (hfresh : ∀ d, (s.channels d).fd ≠ some fd) :
    (s.setChannel c { fd := some fd }).Registered where
  held n e := by
    rw [poller_setChannel, h.held, channels_setChannel]
    by_cases he : e.ch = c
    · rw [he, Function.update_self]
      refine iff_of_false (fun h => ?_) fun h => ?_
      · rw [h.1] at hc
        cases hc
      · rw [← (ChannelState.mk.inj h.1).2] at h
        cases h.2
    · rw [Function.update_of_ne he]
  alone d d' n hd hd' := by
    have halone := h.alone d d' n
    rw [channels_setChannel, Function.update_apply] at hd hd'
    grind

/-- **What one step keeps.** -/
theorem Registered.step (h : s.Registered) (op : ChannelOp ι) (hop : s.Allowed op) :
    (s.step op).Registered := by
  have hdisabled {c : ι} {fd : ℕ} (hfd : (s.channels c).fd = some fd) :
      (s.disableAll c).channels c = ⟨some fd, {}⟩ := by
    simp [disableAll, hfd]
  cases op with
  | new c fd => exact h.new hop.1 hop.2
  | enableReading c | enableWriting c | disableReading c | disableWriting c | disableAll c =>
    exact h.setEvents c _
  | removeConn c =>
    simp only [PollLoop.step, removeConn]
    split
    next => exact h
    next fd hfd =>
      have hc := hdisabled hfd
      refine ((h.setEvents c {}).removeChannel hc).closeFd ?_
      rwa [channels_removeChannel]
  | destroy c =>
    simp only [PollLoop.step, destroy]
    split
    next => exact h
    next fd hfd => exact (h.setEvents c {}).closeFd (hdisabled hfd)

/-- **Removing a connection** gives its descriptor up twice, and epoll has an error logged for the
second time, and for the first as well if the channel asks for nothing. -/
theorem Registered.logged_removeConn {s : PollLoop (EPoller ι) ι} (h : s.Registered) {fd : ℕ}
    (hfd : (s.channels c).fd = some fd) :
    (s.removeConn c).poller.logged =
      s.poller.logged + if (s.channels c).events.isNone then 2 else 1 := by
  have hentry : s.poller.table fd =
      if (s.channels c).events.isNone then none else some ⟨c, (s.channels c).events⟩ := by
    split
    next hnone => exact h.lookup_eq_none rfl hfd hnone
    next hasks => exact (h.held fd ⟨c, _⟩).mpr ⟨by rw [← hfd], by simpa using hasks⟩
  have hfirst : (s.disableAll c).poller = (s.poller.del fd).1 := by
    simp [disableAll, PollLoop.setEvents, updateChannel, hfd, Interest.isNone, Poller.del]
  have hsecond : (s.removeConn c).poller.logged = (((s.poller.del fd).1).del fd).1.logged := by
    simp [removeConn, hfd, PollLoop.closeFd, PollLoop.removeChannel, disableAll, Poller.close,
      Poller.del, ← hfirst]
  rw [hsecond]
  cases hnone : (s.channels c).events.isNone <;> rw [hnone] at hentry
  · simp [EPoller.del_eq, EPoller.fail, hentry]
  · simp [EPoller.del_eq, EPoller.fail, hentry]

/-! ### Runs -/

omit [DecidableEq ι] [LawfulPoller P] in
theorem registered_new {poller : P} (hempty : lookup poller = fun _ => none) :
    ({ poller } : PollLoop P ι).Registered where
  held fd e := by
    rw [hempty]
    exact iff_of_false nofun fun h => by cases h.1
  alone c d fd hc := by cases hc

omit [LawfulPoller P] in
/-- What the channels come to does not depend on the poller. -/
theorem channels_step_congr {Q : Type*} [Poller Q ι] {s : PollLoop P ι} {t : PollLoop Q ι}
    (h : s.channels = t.channels) (op : ChannelOp ι) :
    (s.step op).channels = (t.step op).channels := by
  cases op with
  | new c fd => exact congrArg (Function.update · c _) h
  | enableReading c | enableWriting c | disableReading c | disableWriting c | disableAll c =>
    simp only [step, enableReading, enableWriting, disableReading, disableWriting, disableAll,
      channels_setEvents, h]
  | removeConn c | destroy c =>
    simp only [step, removeConn, destroy, ← h]
    split
    · exact h
    · simp only [closeFd, channels_setChannel, disableAll, channels_removeChannel,
        channels_setEvents, h]

omit [LawfulPoller P] in
theorem channels_run_congr {Q : Type*} [Poller Q ι] {s : PollLoop P ι} {t : PollLoop Q ι}
    (h : s.channels = t.channels) (ops : List (ChannelOp ι)) :
    (s.run ops).channels = (t.run ops).channels := by
  induction ops generalizing s t with
  | nil => exact h
  | cons op ops ih => exact ih (channels_step_congr h op)

omit [LawfulPoller P] in
theorem along_congr {Q : Type*} [Poller Q ι] {s : PollLoop P ι} {t : PollLoop Q ι}
    (h : s.channels = t.channels) {ops : List (ChannelOp ι)}
    (hops : Ledger.Along step Allowed s ops) : Ledger.Along step Allowed t ops := by
  induction ops generalizing s t with
  | nil => trivial
  | cons op ops ih =>
    refine ⟨?_, ih (channels_step_congr h op) hops.2⟩
    have hop := hops.1
    unfold Allowed at hop ⊢
    rwa [← h]

end PollLoop

/-! ## What is called -/

/-- The channel has a descriptor and asks for what it is called for. A hang-up may be found in
place of data. -/
def ChannelState.Asks (ch : ChannelState) (hup : Bool) : Dispatched → Prop
  | .onRead => ch.fd.isSome ∧ (ch.events.read = true ∨ hup = true ∧ ch.events.isNone = false)
  | .onWrite => ch.fd.isSome ∧ ch.events.write = true
  | .onError => ch.fd.isSome ∧ ch.events.isNone = false

namespace PollLoop

/-- The calls of `handleEvent` are those that the worker makes in the turn of an event. -/
theorem start_poll [DecidableEq ι] (c : ι) (n : ReadResult) (r : Revents) (objects : ι → Conn) :
    (worker ι).start (.poll c (if r.read || r.eof then some n else none) r.write r.error) objects =
      r.handleEvent.map fun
        | .onRead => .frame c (.onRead n)
        | .onWrite => .frame c .onWrite
        | .onError => .frame c .onError := by
  obtain ⟨read, write, eof, error⟩ := r
  cases read <;> cases write <;> cases eof <;> cases error <;> rfl

theorem mem_handleEvent {r : Revents} {d : Dispatched} : d ∈ r.handleEvent ↔
    match d with
    | .onRead => r.read = true ∨ r.eof = true
    | .onWrite => r.write = true
    | .onError => r.error = true := by
  cases d <;> simp [Revents.handleEvent]

/-- **epoll**: only what a channel asks for is called. -/
theorem Registered.poll_epoll {s : PollLoop (EPoller ι) ι} (h : s.Registered)
    {events : List (ℕ × EpollEvents)} (hevents : s.poller.Waited events) {c : ι} {r : Revents}
    (hr : (c, r) ∈ s.poller.poll events) {d : Dispatched} (hd : d ∈ r.handleEvent) :
    (s.channels c).Asks false d := by
  obtain ⟨⟨fd, e⟩, he, hmap⟩ := List.mem_filterMap.mp hr
  obtain ⟨entry, htable, hread, hwrite, hrdhup⟩ := hevents _ he
  rw [htable] at hmap
  obtain ⟨rfl, rfl⟩ := Prod.mk.inj (Option.some.inj hmap)
  obtain ⟨hch, hasks⟩ := (h.held fd entry).mp htable
  rw [mem_handleEvent] at hd
  rw [hch]
  cases d with
  | onRead =>
    rcases hd with hd | hd
    · exact ⟨rfl, .inl (hread hd)⟩
    · cases hrdhup.symm.trans hd
  | onWrite => exact ⟨rfl, hwrite hd⟩
  | onError => exact ⟨rfl, hasks⟩

/-- **WSAPoll**: also a hang-up is read. -/
theorem Registered.poll_wsa {s : PollLoop (WSPoller ι) ι} (h : s.Registered)
    {revents : ℕ → WsaEvents} (hevents : s.poller.Waited revents) {maxEvents : ℕ} {c : ι}
    {r : Revents} (hr : (c, r) ∈ s.poller.poll revents maxEvents) {d : Dispatched}
    (hd : d ∈ r.handleEvent) : (s.channels c).Asks r.eof d := by
  obtain ⟨⟨fd, entry⟩, he, hpair⟩ := List.mem_map.mp hr
  obtain ⟨rfl, rfl⟩ := Prod.mk.inj hpair
  have hmem := (List.mem_filter.mp (List.mem_of_mem_take he)).1
  obtain ⟨hread, hwrite⟩ := hevents _ hmem
  obtain ⟨hch, hasks⟩ := (h.held fd entry).mp ((s.poller.find_eq_some fd).mpr hmem)
  rw [mem_handleEvent] at hd
  rw [hch]
  cases d with
  | onRead => exact ⟨rfl, hd.imp hread fun hhup => ⟨hhup, hasks⟩⟩
  | onWrite => exact ⟨rfl, hwrite hd⟩
  | onError => exact ⟨rfl, hasks⟩

/-- **The pollers agree.** After any run in which no two channels have one descriptor, both hold
the same: the events that each channel with a descriptor asks for, if any. So polling either calls
a channel for nothing it does not ask for, but for hang-ups. -/
theorem run_polled [DecidableEq ι] {ops : List (ChannelOp ι)}
    (hops : Ledger.Along step Allowed (epollLoop ι) ops) :
    let e := run (epollLoop ι) ops
    let w := run (wsaLoop ι) ops
    (∀ fd entry, lookup e.poller fd = some entry ↔
      e.channels entry.ch = ⟨some fd, entry.events⟩ ∧ entry.events.isNone = false) ∧
    e.channels = w.channels ∧ lookup e.poller = lookup w.poller ∧
    (∀ events, e.poller.Waited events → ∀ c r, (c, r) ∈ e.poller.poll events →
      ∀ d ∈ r.handleEvent, (e.channels c).Asks false d) ∧
    ∀ revents, w.poller.Waited revents → ∀ maxEvents c r,
      (c, r) ∈ w.poller.poll revents maxEvents →
      ∀ d ∈ r.handleEvent, (w.channels c).Asks r.eof d := by
  intro e w
  have hsame : (epollLoop ι).channels = (wsaLoop ι).channels := rfl
  have hchannels : e.channels = w.channels := channels_run_congr hsame ops
  have he : e.Registered := hops.preserves Registered (fun _ op hs hop => hs.step op hop)
    (registered_new rfl)
  have hw : w.Registered := (along_congr hsame hops).preserves Registered
    (fun _ op hs hop => hs.step op hop) (registered_new rfl)
  refine ⟨he.held, hchannels, ?_, fun events h c r hr d hd => he.poll_epoll h hr hd,
    fun revents h maxEvents c r hr d hd => hw.poll_wsa h hr hd⟩
  funext fd
  refine Option.ext fun entry => ?_
  rw [he.held, hw.held, hchannels]

/-- A connection that is accepted, has bytes left to send, and is removed, and then another one
with the same descriptor. -/
def twoConnections : List (ChannelOp Bool) :=
  [.new false 7, .enableReading false, .enableWriting false, .removeConn false, .new true 7,
    .enableReading true]

theorem run_polled_twoConnections :
    lookup (run (epollLoop Bool) twoConnections).poller =
      lookup (run (wsaLoop Bool) twoConnections).poller :=
  (run_polled (by decide)).2.2.1

end PollLoop

end XNetty.Event
