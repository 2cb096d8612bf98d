import Mathlib.Tactic

/-!
# Pollers

A poller is told which events of which descriptor to wait for, and reports those that have come.
It is the kernel that keeps them on one system and a vector on another.

## Main definitions

* `Poller`, `LawfulPoller` — what a loop asks of a poller, and a poller that does it.
* `EPoller`, `WSPoller` — the two.
* `EPoller.poll`, `WSPoller.poll` — what they report.
-/

namespace XNetty.Event

variable {ι : Type*}

/-- `Channel::events_` -/
structure Interest where
  read : Bool := false
  write : Bool := false
  deriving DecidableEq

/-- `isNoneEvent` -/
def Interest.isNone (events : Interest) : Bool := !events.read && !events.write

/-- A channel, and the events to be reported for it. -/
structure PollEntry (ι : Type*) where
  ch : ι
  events : Interest
  deriving DecidableEq

/-! ## Pollers -/

/-- A poller. The results of `add` and `del` are `0` or `-1`. -/
class Poller (P : Type*) (ι : outParam (Type*)) where
  add : P → ℕ → PollEntry ι → P × Int
  del : P → ℕ → P × Int
  /-- What is left when a descriptor is closed. -/
  close : P → ℕ → P
  /-- What the events of a descriptor are reported for. -/
  lookup : P → ℕ → Option (PollEntry ι)

open Poller (lookup)

/-- A poller that does as it is told. A descriptor that is closed was to be given up before. -/
class LawfulPoller (P : Type*) {ι : Type*} [Poller P ι] : Prop where
  lookup_add : ∀ (p : P) (fd : ℕ) (e : PollEntry ι),
    lookup (Poller.add p fd e).1 = Function.update (lookup p) fd (some e)
  lookup_del : ∀ (p : P) (fd : ℕ),
    lookup (Poller.del p fd).1 = Function.update (lookup p) fd none
  lookup_close : ∀ (p : P) (fd : ℕ), lookup p fd = none → lookup (Poller.close p fd) = lookup p

/-! ### epoll -/

/-- The operations of `epoll_ctl` on a descriptor. -/
inductive EpollOp (ι : Type*) where
  | add (ev : PollEntry ι)
  | mod (ev : PollEntry ι)
  | del

inductive EpollErrno where
  | eexist
  | enoent
  deriving DecidableEq

/-- `epoll_ctl` on an open descriptor. -/
def epollCtl (table : ℕ → Option (PollEntry ι)) (fd : ℕ) :
    EpollOp ι → Except EpollErrno (ℕ → Option (PollEntry ι))
  | .add ev =>
    if (table fd).isSome then .error .eexist else .ok (Function.update table fd (some ev))
  | .mod ev =>
    if (table fd).isSome then .ok (Function.update table fd (some ev)) else .error .enoent
  | .del => if (table fd).isSome then .ok (Function.update table fd none) else .error .enoent

/-- The kernel's list, and how many errors were logged. -/
structure EPoller (ι : Type*) where
  table : ℕ → Option (PollEntry ι) := fun _ => none
  logged : ℕ := 0

namespace EPoller

variable (p : EPoller ι) (fd : ℕ)

def fail : EPoller ι × Int := ({ p with logged := p.logged + 1 }, -1)

def add (e : PollEntry ι) : EPoller ι × Int :=
  match epollCtl p.table fd (.add e) with
  | .ok table => ({ p with table }, 0)
  | .error .eexist =>
    match epollCtl p.table fd (.mod e) with
    | .ok table => ({ p with table }, 0)
    | .error _ => p.fail
  | .error .enoent => p.fail

def del : EPoller ι × Int :=
  match epollCtl p.table fd .del with
  | .ok table => ({ p with table }, 0)
  | .error _ => p.fail

instance : Poller (EPoller ι) ι where
  add := add
  del := del
  -- the kernel forgets a closed descriptor
  close p fd := { p with table := Function.update p.table fd none }
  lookup := table

/-- A descriptor that is there already is changed in a second call. -/
theorem add_eq (e : PollEntry ι) :
    p.add fd e = ({ p with table := Function.update p.table fd (some e) }, 0) := by
  unfold add
  by_cases h : (p.table fd).isSome
  · simp [epollCtl, h]
  · simp [epollCtl, h]

theorem del_eq : p.del fd =
    if (p.table fd).isSome then ({ p with table := Function.update p.table fd none }, 0)
    else p.fail := by
  unfold del
  by_cases h : (p.table fd).isSome
  · simp [epollCtl, h]
  · simp [epollCtl, h]

instance : LawfulPoller (EPoller ι) where
  lookup_add p fd e := congrArg (fun r => r.1.table) (p.add_eq fd e)
  lookup_del p fd := by
    change (p.del fd).1.table = _
    rw [del_eq]
    split
    · rfl
    next h =>
      rw [Option.not_isSome_iff_eq_none] at h
      exact (Function.update_eq_self_iff.mpr h.symm).symm
  lookup_close p fd h := Function.update_eq_self_iff.mpr h.symm

end EPoller

/-! ### WSAPoll -/

/-- The vector that is polled, with one entry for a descriptor. -/
structure WSPoller (ι : Type*) where
  pollfds : List (ℕ × PollEntry ι) := []
  nodup : (pollfds.map Prod.fst).Nodup := by simp

namespace WSPoller

variable (p : WSPoller ι) (fd : ℕ)

/-- The loop that erases the first entry of a descriptor. -/
def erase : WSPoller ι where
  pollfds := p.pollfds.eraseP fun e => e.1 = fd
  nodup := p.nodup.sublist (List.eraseP_sublist.map _)

/-- What is in the vector when an entry is pushed behind the erased one. -/
theorem mem_erase {e : ℕ × PollEntry ι} : e ∈ (p.erase fd).pollfds ↔ e ∈ p.pollfds ∧ e.1 ≠ fd := by
  obtain ⟨pollfds, nodup⟩ := p
  change e ∈ pollfds.eraseP _ ↔ e ∈ pollfds ∧ _
  induction pollfds with
  | nil => simp
  | cons x pollfds ih =>
    obtain ⟨hx, hrest⟩ := List.nodup_cons.mp nodup
    by_cases hfd : x.1 = fd
    · rw [List.eraseP_cons_of_pos (by simpa using hfd)]
      have hother : e ∈ pollfds → e.1 ≠ fd := fun he heq =>
        hx (List.mem_map.mpr ⟨e, he, heq.trans hfd.symm⟩)
      grind
    · rw [List.eraseP_cons_of_neg (by simpa using hfd), List.mem_cons, List.mem_cons, ih hrest]
      grind

def push (e : PollEntry ι) : WSPoller ι where
  pollfds := (p.erase fd).pollfds ++ [(fd, e)]
  nodup := by
    rw [List.map_append, List.nodup_append]
    refine ⟨(p.erase fd).nodup, List.nodup_singleton _, ?_⟩
    rintro a ha b hb rfl
    obtain ⟨x, hx, rfl⟩ := List.mem_map.mp ha
    exact ((p.mem_erase fd).mp hx).2 (List.mem_singleton.mp hb)

/-- The entry of a descriptor. -/
def find : Option (PollEntry ι) := (p.pollfds.find? fun e => e.1 = fd).map Prod.snd

instance : Poller (WSPoller ι) ι where
  add p fd e := (p.push fd e, 0)
  del p fd := (p.erase fd, 0)
  -- the vector keeps what is in it
  close p _ := p
  lookup := find

theorem find_eq_some {e : PollEntry ι} : p.find fd = some e ↔ (fd, e) ∈ p.pollfds := by
  unfold find
  rw [Option.map_eq_some_iff]
  constructor
  · rintro ⟨⟨n, e'⟩, hfind, rfl⟩
    obtain rfl : n = fd := by simpa using List.find?_some hfind
    exact List.mem_of_find?_eq_some hfind
  · intro hmem
    cases hfind : p.pollfds.find? fun e => e.1 = fd with
    | none => simpa using List.find?_eq_none.mp hfind _ hmem
    | some x =>
      have hx : x.1 = fd := by simpa using List.find?_some hfind
      have heq : x = (fd, e) :=
        List.inj_on_of_nodup_map p.nodup (List.mem_of_find?_eq_some hfind) hmem hx
      exact ⟨x, rfl, congrArg Prod.snd heq⟩

/-- Vectors with the same entries are looked up alike. -/
theorem find_ext {f : ℕ → Option (PollEntry ι)}
    (h : ∀ n e, (n, e) ∈ p.pollfds ↔ f n = some e) : p.find = f := by
  funext n
  refine Option.ext fun e => ?_
  rw [find_eq_some, h]

instance : LawfulPoller (WSPoller ι) where
  lookup_add p fd e := by
    refine find_ext _ fun n e' => ?_
    change (n, e') ∈ (p.erase fd).pollfds ++ [(fd, e)] ↔ _
    rw [List.mem_append, mem_erase, ← find_eq_some, List.mem_singleton, Function.update_apply]
    change p.find n = some e' ∧ _ ∨ _ ↔ (if n = fd then some e else p.find n) = some e'
    grind
  lookup_del p fd := by
    refine find_ext _ fun n e' => ?_
    change (n, e') ∈ (p.erase fd).pollfds ↔ _
    rw [mem_erase, ← find_eq_some, Function.update_apply]
    change p.find n = some e' ∧ _ ↔ (if n = fd then none else p.find n) = some e'
    grind
  lookup_close _ _ _ := rfl

end WSPoller

/-! ## Polling -/

/-- `Channel::revents_` -/
structure Revents where
  read : Bool := false
  write : Bool := false
  eof : Bool := false
  error : Bool := false
  deriving DecidableEq

inductive Dispatched where
  | onRead
  | onWrite
  | onError
  deriving DecidableEq

/-- `Channel::handleEvent` -/
def Revents.handleEvent (r : Revents) : List Dispatched :=
  (if r.read || r.eof then [.onRead] else []) ++ (if r.write then [.onWrite] else []) ++
    if r.error then [.onError] else []

/-- `epoll_event::events` -/
structure EpollEvents where
  epollin : Bool := false
  epollout : Bool := false
  epollrdhup : Bool := false
  epollerr : Bool := false
  epollhup : Bool := false
  deriving DecidableEq

def EpollEvents.revents (e : EpollEvents) : Revents where
  read := e.epollin
  write := e.epollout
  eof := e.epollrdhup
  error := e.epollerr || e.epollhup

/-- `poll`, with the events that `epoll_wait` gives. -/
def EPoller.poll (p : EPoller ι) (events : List (ℕ × EpollEvents)) : List (ι × Revents) :=
  events.filterMap fun e => (p.table e.1).map fun entry => (entry.ch, e.2.revents)

/-- `epoll_wait` gives events that were asked for, errors and hang-ups. `EPOLLRDHUP` is never
asked for. -/
def EPoller.Waited (p : EPoller ι) (events : List (ℕ × EpollEvents)) : Prop :=
  ∀ e ∈ events, ∃ entry, p.table e.1 = some entry ∧
    (e.2.epollin = true → entry.events.read = true) ∧
    (e.2.epollout = true → entry.events.write = true) ∧ e.2.epollrdhup = false

/-- `WSAPOLLFD::revents` -/
structure WsaEvents where
  pollin : Bool := false
  pollout : Bool := false
  pollhup : Bool := false
  pollerr : Bool := false
  deriving DecidableEq

def WsaEvents.revents (e : WsaEvents) : Revents where
  read := e.pollin
  write := e.pollout
  eof := e.pollhup
  error := e.pollerr

/-- `poll`, with the events that `WSAPoll` sets for each descriptor. -/
def WSPoller.poll (p : WSPoller ι) (revents : ℕ → WsaEvents) (maxEvents : ℕ) :
    List (ι × Revents) :=
  ((p.pollfds.filter fun e => revents e.1 ≠ {}).take maxEvents).map fun e =>
    (e.2.ch, (revents e.1).revents)

/-- `WSAPoll` sets events that were asked for, errors and hang-ups. -/
def WSPoller.Waited (p : WSPoller ι) (revents : ℕ → WsaEvents) : Prop :=
  ∀ e ∈ p.pollfds, ((revents e.1).pollin = true → e.2.events.read = true) ∧
    ((revents e.1).pollout = true → e.2.events.write = true)

end XNetty.Event
