import XNetty.Event.Subscribers

/-!
# A worker and the topic tree

The connections of a worker subscribe in one topic tree. Each step of the worker makes the calls
on the tree that the functions it runs make, and the tree's subscribers are at any time those
that the connections own.

## Main definitions

* `Hub` — a worker with the tree.
* `Owned` — the tree is what the connections' subscribers make of it.
-/

namespace XNetty.Event

open Reentrant WebSocket

variable {ι : Type*} [DecidableEq ι]

/-- A connection that gives up its subscriber has the tree free it. -/
def Conn.freed (c c' : Conn) : List TopicCall :=
  match c.sub, c'.sub with
  | some sub, none => [.freeSubscriber (some sub.address)]
  | _, _ => []

/-- The calls on the tree that a call makes. -/
def Conn.treeCalls (ι : Type*) [DecidableEq ι] (c : Conn) : Api → List TopicCall
  | .subscribe topic address cell =>
    if c.hasWebSocket then
      match c.sub with
      | none => [.createSubscriber address, .subscribe address topic cell]
      | some sub => [.subscribe sub.address topic cell]
    else []
  | .unsubscribe topic => (c.sub.map fun sub => .unsubscribe sub.address topic).toList
  | a => c.freed ((worker ι).call a c).1

structure Hub (ι : Type*) where
  machine : Machine ι Conn Frame
  tree : TopicTree := {}

/-- The calls on the tree that a step makes. -/
def treeCalls (m : Machine ι Conn Frame) : Choice ι Api (WorkerEvent ι) → List TopicCall
  | .go =>
    match m.stack with
    | .frame i f :: _ => (m.objects i).freed ((worker ι).go f (m.objects i)).1
    | _ => []
  | .call i a =>
    match m.stack with
    | .outside _ :: _ => (m.objects i).treeCalls ι a
    | _ => []
  | _ => []

namespace Hub

def step (hub : Hub ι) (choice : Choice ι Api (WorkerEvent ι)) : Hub ι :=
  { machine := hub.machine.step (worker ι) choice
    tree := hub.tree.run (treeCalls hub.machine choice) }

/-- The allocator returns cells that are not in use. -/
def CellsFree (hub : Hub ι) : Choice ι Api (WorkerEvent ι) → Prop
  | .call _ (.subscribe _ address cell) =>
    hub.tree.subscriberAt address = none ∧ hub.tree.topicAt cell = none
  | _ => True

end Hub

def newHub (sockets : ι → Socket) : Hub ι := { machine := newWorker sockets }

/-! ### Who owns the subscribers -/

/-- The live subscribers of the tree are those of the connections, each of one of them, in the
topics it has there. -/
structure Owned (subs : ι → Option Subscription) (tree : TopicTree) (r : Subscriptions) : Prop where
  refines : tree.Refines r
  live : ∀ s, s ∈ r.live ↔ ∃ i sub, subs i = some sub ∧ sub.address = s
  rel : ∀ s topic, (s, topic) ∈ r.rel ↔
    ∃ i sub, subs i = some sub ∧ sub.address = s ∧ topic ∈ sub.topics
  alone : ∀ i j sub sub', subs i = some sub → subs j = some sub' →
    sub.address = sub'.address → i = j
  nodup : ∀ i sub, subs i = some sub → sub.topics.Nodup

variable {subs : ι → Option Subscription} {tree : TopicTree} {r : Subscriptions} {i : ι}
  {sub : Subscription}

omit [DecidableEq ι] in
theorem owned_new : Owned (fun _ : ι => none) {} {} where
  refines := TopicTree.refines_empty
  live := by simp
  rel := by simp
  alone := by simp
  nodup := by simp

omit [DecidableEq ι] in
theorem Owned.isSome (h : Owned subs tree r) (hsub : subs i = some sub) :
    (tree.subscriberAt sub.address).isSome :=
  (h.refines.live sub.address).mp ((h.live sub.address).mpr ⟨i, sub, hsub, rfl⟩)

theorem update_eq_some {v : Option Subscription} {j : ι} {x : Subscription} :
    Function.update subs i v j = some x ↔ j = i ∧ v = some x ∨ j ≠ i ∧ subs j = some x := by
  by_cases hj : j = i
  · subst hj
    simp
  · simp [hj]

omit [DecidableEq ι] in
/-- Nobody else has the address of a connection's subscriber. -/
theorem Owned.address_ne (h : Owned subs tree r) (hsub : subs i = some sub) {j : ι}
    {sub' : Subscription} (hsub' : subs j = some sub') (hj : j ≠ i) :
    sub'.address ≠ sub.address := fun heq => hj (h.alone j i sub' sub hsub' hsub heq)

theorem Owned.create (h : Owned subs tree r) (hsub : subs i = none) {address : SubscriberPtr}
    (haddress : tree.subscriberAt address = none) :
    Owned (Function.update subs i (some { address })) (tree.step (.createSubscriber address)).1
      (r.step (.createSubscriber address)) := by
  have hallowed : tree.Allowed (.createSubscriber address) := haddress
  have hnew : ∀ j sub, subs j = some sub → sub.address ≠ address := by
    rintro j sub hj rfl
    have hlive := h.isSome hj
    rw [haddress] at hlive
    cases hlive
  refine ⟨(h.refines.step hallowed).2, fun s => ?_, fun s topic => ?_, fun j k x y hx hy => ?_,
    fun j x hx => ?_⟩
  · simp only [Subscriptions.step, Finset.mem_insert, h.live, update_eq_some]
    grind
  · simp only [Subscriptions.step, h.rel, update_eq_some]
    grind
  · rw [update_eq_some] at hx hy
    have halone := h.alone j k x y
    grind
  · rw [update_eq_some] at hx
    have hnodup := h.nodup j x
    grind

theorem Owned.subscribe (h : Owned subs tree r) (hsub : subs i = some sub) (topic : Bytes)
    {cell : TopicPtr} (hcell : tree.topicAt cell = none) :
    Owned (Function.update subs i (some { sub with topics := sub.topics.insert topic }))
      (tree.step (.subscribe sub.address topic cell)).1
      (r.step (.subscribe sub.address topic cell)) := by
  have hallowed : tree.Allowed (.subscribe sub.address topic cell) := ⟨h.isSome hsub, hcell⟩
  refine ⟨(h.refines.step hallowed).2, fun s => ?_, fun s topic' => ?_, fun j k x y hx hy => ?_,
    fun j x hx => ?_⟩
  · simp only [Subscriptions.step, h.live, update_eq_some]
    grind
  · simp only [Subscriptions.step, Finset.mem_insert, h.rel, update_eq_some, Prod.mk.injEq]
    grind
  · rw [update_eq_some] at hx hy
    have halone := h.alone j k
    grind
  · rw [update_eq_some] at hx
    rcases hx with ⟨-, hx⟩ | ⟨-, hx⟩
    · cases hx
      exact (h.nodup i sub hsub).insert
    · exact h.nodup j x hx

theorem Owned.unsubscribe (h : Owned subs tree r) (hsub : subs i = some sub) (topic : Bytes) :
    Owned (Function.update subs i (some { sub with topics := sub.topics.erase topic }))
      (tree.step (.unsubscribe sub.address topic)).1 (r.step (.unsubscribe sub.address topic)) := by
  have hallowed : tree.Allowed (.unsubscribe sub.address topic) := h.isSome hsub
  have hnodup := h.nodup i sub hsub
  refine ⟨(h.refines.step hallowed).2, fun s => ?_, fun s topic' => ?_, fun j k x y hx hy => ?_,
    fun j x hx => ?_⟩
  · simp only [Subscriptions.step, h.live, update_eq_some]
    grind
  · have hother : ∀ j x, subs j = some x → j ≠ i → x.address ≠ sub.address :=
      fun j x hx => h.address_ne hsub hx
    have herase := hnodup.mem_erase_iff (a := topic') (b := topic)
    simp only [Subscriptions.step, Finset.mem_erase, h.rel, update_eq_some]
    grind
  · rw [update_eq_some] at hx hy
    have halone := h.alone j k
    grind
  · rw [update_eq_some] at hx
    rcases hx with ⟨-, hx⟩ | ⟨-, hx⟩
    · cases hx
      exact hnodup.erase topic
    · exact h.nodup j x hx

theorem Owned.free (h : Owned subs tree r) (hsub : subs i = some sub) :
    Owned (Function.update subs i none) (tree.step (.freeSubscriber (some sub.address))).1
      (r.step (.freeSubscriber (some sub.address))) := by
  have hallowed : tree.Allowed (.freeSubscriber (some sub.address)) := by
    rintro s ⟨⟩
    exact h.isSome hsub
  have hother : ∀ j x, subs j = some x → j ≠ i → x.address ≠ sub.address :=
    fun j x hx => h.address_ne hsub hx
  refine ⟨(h.refines.step hallowed).2, fun s => ?_, fun s topic => ?_, fun j k x y hx hy => ?_,
    fun j x hx => ?_⟩
  · simp only [Subscriptions.step, Finset.mem_erase, h.live, update_eq_some]
    grind
  · simp only [Subscriptions.step, Finset.mem_filter, h.rel, update_eq_some]
    grind
  · rw [update_eq_some] at hx hy
    have halone := h.alone j k
    grind
  · rw [update_eq_some] at hx
    have hnodup := h.nodup j x
    grind

/-! ### Steps -/

/-- The subscribers of the connections. -/
def subsOf (objects : ι → Conn) (i : ι) : Option Subscription := (objects i).sub

theorem subsOf_update (objects : ι → Conn) (c : Conn) :
    subsOf (Function.update objects i c) = Function.update (subsOf objects) i c.sub := by
  funext j
  by_cases hj : j = i
  · subst hj
    simp [subsOf]
  · simp [subsOf, hj]

/-- A connection that subscribes to nothing, but may give its subscriber up. -/
theorem Owned.freed {objects : ι → Conn} (h : Owned (subsOf objects) tree r) {c : Conn}
    (hsub : c.sub = (objects i).sub ∨ c.sub = none) :
    ∃ r, Owned (subsOf (Function.update objects i c)) (tree.run ((objects i).freed c)) r := by
  rw [subsOf_update]
  rcases hsub with hsub | hsub
  · have hsame : (objects i).freed c = [] := by
      unfold Conn.freed
      rw [hsub]
      cases (objects i).sub <;> rfl
    rw [hsame, hsub, show (objects i).sub = subsOf objects i from rfl, Function.update_eq_self]
    exact ⟨r, h⟩
  · cases hold : (objects i).sub with
    | none =>
      have hnone : (objects i).freed c = [] := by simp [Conn.freed, hold]
      rw [hnone, hsub, show (none : Option Subscription) = subsOf objects i from hold.symm,
        Function.update_eq_self]
      exact ⟨r, h⟩
    | some sub =>
      have hfree : (objects i).freed c = [.freeSubscriber (some sub.address)] := by
        simp [Conn.freed, hold, hsub]
      rw [hfree, hsub]
      exact ⟨_, h.free hold⟩

theorem Owned.call {objects : ι → Conn} (h : Owned (subsOf objects) tree r) {a : Api} {i : ι}
    (hcells : ∀ topic address cell, a = .subscribe topic address cell →
      tree.subscriberAt address = none ∧ tree.topicAt cell = none) :
    ∃ r, Owned (subsOf (Function.update objects i ((worker ι).call a (objects i)).1))
      (tree.run ((objects i).treeCalls ι a)) r := by
  cases a with
  | subscribe topic address cell =>
    obtain ⟨haddress, hcell⟩ := hcells topic address cell rfl
    rw [subsOf_update]
    simp only [worker, Conn.subscribe, Conn.treeCalls]
    by_cases hws : (objects i).hasWebSocket
    · rw [if_pos hws, if_pos hws]
      cases hold : (objects i).sub with
      | none =>
        have hcreate := h.create hold haddress
        have hcell' : (tree.step (.createSubscriber address)).1.topicAt cell = none := hcell
        have hself : Function.update (subsOf objects) i (some { address }) i = some { address } :=
          Function.update_self ..
        have hnext := hcreate.subscribe hself topic hcell'
        rw [Function.update_idem] at hnext
        exact ⟨_, hnext⟩
      | some sub => exact ⟨_, h.subscribe hold topic hcell⟩
    · rw [if_neg hws, if_neg hws, show (objects i).sub = subsOf objects i from rfl,
        Function.update_eq_self]
      exact ⟨r, h⟩
  | unsubscribe topic =>
    rw [subsOf_update]
    simp only [worker, Conn.unsubscribe, Conn.treeCalls]
    cases hold : (objects i).sub with
    | none =>
      refine ⟨r, ?_⟩
      rw [show (none : Option Subscription).map _ = subsOf objects i from hold.symm,
        Function.update_eq_self]
      exact h
    | some sub => exact ⟨_, h.unsubscribe hold topic⟩
  | _ => exact h.freed (call_sub _ _ (by simp) (by simp))

theorem owned_step {hub : Hub ι} (h : Owned (subsOf hub.machine.objects) hub.tree r)
    {choice : Choice ι Api (WorkerEvent ι)} (hcells : hub.CellsFree choice) :
    ∃ r, Owned (subsOf (hub.step choice).machine.objects) (hub.step choice).tree r := by
  obtain ⟨⟨objects, stack⟩, tree⟩ := hub
  cases choice with
  | start e =>
    cases stack with
    | nil => exact ⟨r, h⟩
    | cons slot rest => exact ⟨r, h⟩
  | go =>
    match stack, h with
    | [], h => exact ⟨r, h⟩
    | .outside guarded :: rest, h => exact ⟨r, h⟩
    | .frame i f :: rest, h => exact h.freed (go_sub (ι := ι) f _)
  | call i a =>
    match stack, h with
    | [], h => exact ⟨r, h⟩
    | .frame j f :: rest, h => exact ⟨r, h⟩
    | .outside guarded :: rest, h =>
      refine h.call fun topic address cell heq => ?_
      subst heq
      exact hcells
  | ret =>
    match stack, h with
    | [], h => exact ⟨r, h⟩
    | .frame j f :: rest, h => exact ⟨r, h⟩
    | .outside guarded :: rest, h => exact ⟨r, h⟩
  | throw =>
    match stack, h with
    | [], h => exact ⟨r, h⟩
    | .frame j f :: rest, h => exact ⟨r, h⟩
    | .outside guarded :: rest, h => exact ⟨r, h⟩

/-- A connection with a `WebSocketHandler` is set up, and data arrives for it. -/
def accepted : List (Choice Unit Api (WorkerEvent Unit)) :=
  [.start (.accept () 5 [{ webSocket := true }] 0), .go, .go, .ret, .go, .go, .go, .ret, .go, .go,
    .start (.poll () (some .data) false false), .go]

/-- It subscribes, and later the other side closes it. -/
def subscribedThenEof : List (Choice Unit Api (WorkerEvent Unit)) :=
  accepted ++ [.call () (.subscribe (ascii "chat") 1 7), .ret, .go, .ret, .go, .go,
    .start (.poll () (some .eof) false false), .go, .go, .ret, .go, .go, .go, .ret, .go, .go,
    .go, .ret, .go]

/-- It subscribes, and then a write of its handler fails. -/
def subscribedThenWriteError : List (Choice Unit Api (WorkerEvent Unit)) :=
  accepted ++ [.call () (.subscribe (ascii "chat") 1 7), .call () (.fireWrite (.copyOf [72])),
    .ret, .go, .ret, .go, .go, .go, .go, .ret, .go, .go, .go, .ret, .go]

end XNetty.Event
