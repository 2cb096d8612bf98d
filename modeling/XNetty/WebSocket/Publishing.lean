import XNetty.Event.QueueTally
import XNetty.Lib.Ledger
import XNetty.WebSocket.Frame
import XNetty.WebSocket.Subscriptions

/-!
# Publishing to connections of other workers

A published message goes from the topic tree, which all workers share, to the queue of each
subscriber's worker, and from there to the subscriber's connection. What a connection is to see
of it is said by a board that knows neither pointers nor queues.

## Main definitions

* `Publishing` — the tree, the sockets with their subscribers, and the queues of the workers.
* `Publishing.run` — calls of any sockets in any threads, with rounds of the workers between them.
* `Board` — who is subscribed to what, and what was published for whom.
* `Publishing.Represents` — the tree and the sockets against the board.
-/

namespace XNetty

open Event WebSocket

namespace Publishing

/-- What is queued in a worker: the functor that the callback of `sTopicTree` makes for the
connection of a `WebSocket`, or one from elsewhere. -/
inductive Posting (σ : Type*) where
  | fireWrite (ws : σ) (payload : Bytes)
  | other
  deriving DecidableEq

/-- A `WebSocket` with what its functors look at in its connection. -/
structure WebSocket where
  /-- `sub_` -/
  sub : Option SubscriberPtr := none
  /-- `ctx_` is set. -/
  ctx : Bool := false
  /-- The connection has not been destroyed. -/
  conn : Bool := true
  /-- `ctx_->context()` is there and `isActive()`. -/
  active : Bool := true
  /-- The frames that published messages were written in. -/
  written : List WebSocketFrame := []

end Publishing

open Publishing

structure Publishing (σ ω : Type*) where
  /-- `sTopicTree` -/
  tree : TopicTree := {}
  /-- `s->user` and `s->worker` of each subscriber. -/
  user : SubscriberPtr → Option σ := fun _ => none
  worker : SubscriberPtr → Option ω := fun _ => none
  sockets : σ → WebSocket := fun _ => {}
  queues : ω → PendingFunctors (Posting σ)

namespace Publishing

variable {σ ω τ : Type*} [DecidableEq σ] [DecidableEq ω] [DecidableEq τ]

inductive Op (σ ω τ : Type*) where
  /-- `WebSocket::setCtx`, by the handler of the connection. -/
  | setCtx (ws : σ)
  /-- With the cells that the allocator returns where the call needs one. -/
  | subscribe (ws : σ) (topic : Bytes) (address : SubscriberPtr) (topicAddress : TopicPtr)
  | unsubscribe (ws : σ) (topic : Bytes)
  /-- `freeSubscriber(std::move(sub_))`, in `WebSocket::close` and in the handler. -/
  | freeSubscriber (ws : σ)
  | publish (thread : τ) (ws : σ) (topic message : Bytes)
  | broadcast (thread : τ) (topic message : Bytes)
  /-- A functor from elsewhere is queued. -/
  | queueInLoop (worker : ω)
  | doPendingFunctors (worker : ω)
  /-- `Context::isActive` turns false. -/
  | inactive (ws : σ)
  | release (ws : σ)

def setSocket (s : Publishing σ ω) (ws : σ) (socket : WebSocket) : Publishing σ ω :=
  { s with sockets := Function.update s.sockets ws socket }

/-- The frame that a published message is written in. -/
def textFrame (payload : Bytes) : WebSocketFrame :=
  { opcode := .text, fin := true, payload := payload }

/-! ### The tree and its subscribers -/

section calls

variable (loopRef : σ → ω)

/-- The subscriber that `WebSocket::subscribe` makes, with the worker of the connection. -/
def createSubscriber (s : Publishing σ ω) (ws : σ) (address : SubscriberPtr) : Publishing σ ω :=
  let socket := s.sockets ws
  { s with
    tree := (s.tree.createSubscriber address).1
    user := Function.update s.user address (some ws)
    worker := Function.update s.worker address
      (if socket.ctx && socket.conn then some (loopRef ws) else none)
    sockets := Function.update s.sockets ws { socket with sub := some address } }

/-- `WebSocket::subscribe`. -/
def subscribe (s : Publishing σ ω) (ws : σ) (topic : Bytes) (address : SubscriberPtr)
    (topicAddress : TopicPtr) : Publishing σ ω :=
  match (s.sockets ws).sub with
  | some a => { s with tree := (s.tree.subscribe a topic topicAddress).1 }
  | none =>
    let s := s.createSubscriber loopRef ws address
    { s with tree := (s.tree.subscribe address topic topicAddress).1 }

/-- `WebSocket::unsubscribe`. -/
def unsubscribe (s : Publishing σ ω) (ws : σ) (topic : Bytes) : Publishing σ ω :=
  match (s.sockets ws).sub with
  | none => s
  | some a => { s with tree := (s.tree.unsubscribe a topic).1 }

def freeSubscriber (s : Publishing σ ω) (ws : σ) : Publishing σ ω :=
  let socket := s.sockets ws
  ({ s with tree := s.tree.freeSubscriber socket.sub } : Publishing σ ω).setSocket ws
    { socket with sub := none }

end calls

/-! ### Functors -/

/-- The callback of `sTopicTree`: the functor it makes, and the worker it hands it to. -/
def callback (s : Publishing σ ω) (d : Delivery) : Option (ω × Posting σ) :=
  match s.worker d.subscriber, s.user d.subscriber with
  | some k, some ws => if (s.sockets ws).ctx then some (k, .fireWrite ws d.message) else none
  | _, _ => none

/-- What the functors do when they run. -/
def execute (s : Publishing σ ω) : Posting σ → Publishing σ ω
  | .fireWrite ws payload =>
    let socket := s.sockets ws
    if socket.active then
      s.setSocket ws { socket with written := socket.written ++ [textFrame payload] }
    else s
  | .other => s

def queueInLoop (s : Publishing σ ω) (r : ω × Posting σ) : Publishing σ ω :=
  { s with queues := Function.update s.queues r.1 ((s.queues r.1).queueInLoop r.2) }

/-- `EventLoop::doPendingFunctors` of a worker. -/
def doPendingFunctors (s : Publishing σ ω) (worker : ω) : Publishing σ ω :=
  let queue := s.queues worker
  queue.round.foldl execute
    { s with queues := Function.update s.queues worker queue.doPendingFunctors }

/-- The calls of `runInLoop` in `sTopicTree.publish`. -/
def posts (s : Publishing σ ω) (sender : Option SubscriberPtr) (topic message : Bytes) :
    List (ω × Posting σ) :=
  (s.tree.publish sender topic message).1.filterMap s.callback

/-- What an operation hands to workers. -/
def posted (s : Publishing σ ω) : Op σ ω τ → List (ω × Posting σ)
  | .publish _ ws topic message =>
    match (s.sockets ws).sub with
    | none => []
    | some a => s.posts (some a) topic message
  | .broadcast _ topic message => s.posts none topic message
  | .queueInLoop worker => [(worker, .other)]
  | _ => []

/-! ### Runs -/

section run

variable (loopRef : σ → ω) (threadId : ω → τ)

/-- `EventLoop::runInLoop` in a thread. -/
def runInLoop (thread : τ) (s : Publishing σ ω) (r : ω × Posting σ) : Publishing σ ω :=
  -- `isInLoopThread()`
  if threadId r.1 = thread then s.execute r.2 else s.queueInLoop r

def step (s : Publishing σ ω) (op : Op σ ω τ) : Publishing σ ω :=
  match op with
  | .setCtx ws => s.setSocket ws { s.sockets ws with ctx := true }
  | .subscribe ws topic address topicAddress => s.subscribe loopRef ws topic address topicAddress
  | .unsubscribe ws topic => s.unsubscribe ws topic
  | .freeSubscriber ws => s.freeSubscriber ws
  | .publish thread _ _ _ | .broadcast thread _ _ =>
    (s.posted op).foldl (runInLoop threadId thread) s
  | .queueInLoop _ => (s.posted op).foldl queueInLoop s
  | .doPendingFunctors worker => s.doPendingFunctors worker
  | .inactive ws => s.setSocket ws { s.sockets ws with active := false }
  | .release ws => s.setSocket ws { s.sockets ws with active := false, conn := false }

def run (s : Publishing σ ω) (ops : List (Op σ ω τ)) : Publishing σ ω :=
  ops.foldl (step loopRef threadId) s

/-- Workers with rings of one size, before anything is queued. -/
def start (σ ω : Type*) (ring : SpscQueue (Posting σ)) : Publishing σ ω :=
  { queues := fun _ => .new ring }

/-- The allocator returns cells that are not in use, a socket subscribes when it has a context and a
connection, and no functor is handed to a worker in the thread that constructed it. -/
def Allowed (s : Publishing σ ω) (op : Op σ ω τ) : Prop :=
  match op with
  | .subscribe ws _ address topicAddress =>
    s.tree.topicAt topicAddress = none ∧
      ((s.sockets ws).sub = none → s.tree.subscriberAt address = none ∧
        (s.sockets ws).ctx = true ∧ (s.sockets ws).conn = true)
  | .publish thread _ _ _ | .broadcast thread _ _ => ∀ r ∈ s.posted op, threadId r.1 ≠ thread
  | _ => True

end run

end Publishing

/-! ## What publishing is for -/

/-- The sockets that have a subscriber, the topics of each, and what was published for it. -/
structure Board (σ : Type*) where
  members : Finset σ := ∅
  rel : Finset (σ × Bytes) := ∅
  inbox : σ → List Bytes := fun _ => []

namespace Board

variable {σ ω τ : Type*} [DecidableEq σ]

/-- A message is for everyone who has the topic, its sender left out. -/
def post (b : Board σ) (sender : Option σ) (topic message : Bytes) : Board σ :=
  { b with
    inbox := fun ws =>
      if (ws, topic) ∈ b.rel ∧ sender ≠ some ws then b.inbox ws ++ [message] else b.inbox ws }

def step (b : Board σ) : Op σ ω τ → Board σ
  | .subscribe ws topic _ _ =>
    { b with members := insert ws b.members, rel := insert (ws, topic) b.rel }
  | .unsubscribe ws topic => { b with rel := b.rel.erase (ws, topic) }
  | .freeSubscriber ws =>
    { b with members := b.members.erase ws, rel := b.rel.filter fun x => x.1 ≠ ws }
  | .publish _ ws topic message => if ws ∈ b.members then b.post (some ws) topic message else b
  | .broadcast _ topic message => b.post none topic message
  | _ => b

def run (b : Board σ) (ops : List (Op σ ω τ)) : Board σ := ops.foldl step b

end Board

namespace Publishing

variable {σ ω τ : Type*}

/-! ## The tree and the board -/

/-- Nothing that the board is about has changed. -/
structure Unmoved (s s' : Publishing σ ω) : Prop where
  tree : s'.tree = s.tree
  user : s'.user = s.user
  worker : s'.worker = s.worker
  sub : ∀ ws, (s'.sockets ws).sub = (s.sockets ws).sub
  ctx : ∀ ws, (s.sockets ws).ctx = true → (s'.sockets ws).ctx = true

theorem Unmoved.refl (s : Publishing σ ω) : Unmoved s s :=
  ⟨rfl, rfl, rfl, fun _ => rfl, fun _ => id⟩

theorem Unmoved.trans {s s' s'' : Publishing σ ω} (h : Unmoved s s') (h' : Unmoved s' s'') :
    Unmoved s s'' where
  tree := h'.tree.trans h.tree
  user := h'.user.trans h.user
  worker := h'.worker.trans h.worker
  sub ws := (h'.sub ws).trans (h.sub ws)
  ctx ws hctx := h'.ctx ws (h.ctx ws hctx)

theorem unmoved_foldl {α : Type*} {f : Publishing σ ω → α → Publishing σ ω}
    (hf : ∀ s a, Unmoved s (f s a)) (as : List α) (s : Publishing σ ω) :
    Unmoved s (as.foldl f s) := by
  induction as generalizing s with
  | nil => exact Unmoved.refl s
  | cons a as ih => exact (hf s a).trans (ih _)

variable (loopRef : σ → ω)

/-- The subscribers of the tree are those of the sockets, with their topics and with the workers
of their connections. -/
structure Represents (s : Publishing σ ω) (r : Subscriptions) (b : Board σ) : Prop where
  refines : s.tree.Refines r
  owner : ∀ a ∈ r.live, ∃ ws, (s.sockets ws).sub = some a
  refs : ∀ ws a, (s.sockets ws).sub = some a → a ∈ r.live ∧ s.user a = some ws ∧
    s.worker a = some (loopRef ws) ∧ (s.sockets ws).ctx = true
  members : ∀ ws, ws ∈ b.members ↔ (s.sockets ws).sub.isSome
  rel : ∀ ws topic, (ws, topic) ∈ b.rel ↔
    ∃ a, (s.sockets ws).sub = some a ∧ (a, topic) ∈ r.rel

variable {loopRef} {s s' : Publishing σ ω} {r : Subscriptions} {b : Board σ} {ws : σ}

theorem Represents.congr (h : Represents loopRef s r b) (hmoved : Unmoved s s') :
    Represents loopRef s' r b where
  refines := hmoved.tree ▸ h.refines
  owner a ha := by
    obtain ⟨v, hv⟩ := h.owner a ha
    exact ⟨v, (hmoved.sub v).trans hv⟩
  refs v a hv := by
    obtain ⟨hlive, huser, hworker, hctx⟩ := h.refs v a ((hmoved.sub v).symm.trans hv)
    exact ⟨hlive, hmoved.user ▸ huser, hmoved.worker ▸ hworker, hmoved.ctx v hctx⟩
  members v := by rw [h.members, hmoved.sub]
  rel v topic := by rw [h.rel, hmoved.sub]

/-- Two sockets do not share a subscriber. -/
theorem Represents.sub_injective (h : Represents loopRef s r b) {v w : σ} {a : SubscriberPtr}
    (hv : (s.sockets v).sub = some a) (hw : (s.sockets w).sub = some a) : v = w :=
  Option.some.inj ((h.refs v a hv).2.1.symm.trans (h.refs w a hw).2.1)

theorem Represents.live_of_rel (h : Represents loopRef s r b) {a : SubscriberPtr} {topic : Bytes}
    (ha : (a, topic) ∈ r.rel) : a ∈ r.live := by
  obtain ⟨p, -, hmember⟩ := (h.refines.rel a topic).mp ha
  exact (h.refines.live a).mpr (h.refines.wellFormed.noDangling.members p a hmember)

/-- The functor of a delivery goes to the worker of the socket whose subscriber it is. -/
theorem Represents.callback_eq (h : Represents loopRef s r b) {a : SubscriberPtr}
    (hlive : a ∈ r.live) (message : Bytes) (flags : ℕ) : ∃ v, (s.sockets v).sub = some a ∧
      s.callback { subscriber := a, message, flags } =
        some (loopRef v, .fireWrite v message) := by
  obtain ⟨v, hv⟩ := h.owner a hlive
  obtain ⟨-, huser, hworker, hctx⟩ := h.refs v a hv
  exact ⟨v, hv, by simp [callback, huser, hworker, hctx]⟩

theorem Represents.mem_posts (h : Represents loopRef s r b) {sender : Option SubscriberPtr}
    {topic message : Bytes} {post : ω × Posting σ} (hpost : post ∈ s.posts sender topic message) :
    ∃ v, post = (loopRef v, .fireWrite v message) := by
  obtain ⟨d, hd, hcallback⟩ := List.mem_filterMap.mp hpost
  obtain ⟨a, rfl, hrel, -⟩ := ((h.refines.publish sender topic message).2.1 d).mp hd
  obtain ⟨v, -, heq⟩ := h.callback_eq (h.live_of_rel hrel) message (FIRST ||| LAST)
  exact ⟨v, Option.some.inj (hcallback.symm.trans heq)⟩

section sockets

variable [DecidableEq σ]

theorem unmoved_setSocket {s : Publishing σ ω} {ws : σ} {socket : WebSocket}
    (hsub : socket.sub = (s.sockets ws).sub)
    (hctx : (s.sockets ws).ctx = true → socket.ctx = true) : Unmoved s (s.setSocket ws socket) where
  tree := rfl
  user := rfl
  worker := rfl
  sub v := by
    by_cases hv : v = ws
    · simp [setSocket, hv, hsub]
    · simp [setSocket, hv]
  ctx v h := by
    by_cases hv : v = ws
    · subst hv
      simpa [setSocket] using hctx h
    · simpa [setSocket, hv] using h

theorem unmoved_execute (s : Publishing σ ω) (task : Posting σ) : Unmoved s (s.execute task) := by
  cases task with
  | other => exact Unmoved.refl s
  | fireWrite ws payload =>
    rw [execute]
    split
    · exact unmoved_setSocket rfl id
    · exact Unmoved.refl s

theorem Represents.createSubscriber (h : Represents loopRef s r b) {address : SubscriberPtr}
    (hsub : (s.sockets ws).sub = none) (hfree : s.tree.subscriberAt address = none)
    (hctx : (s.sockets ws).ctx = true) (hconn : (s.sockets ws).conn = true) :
    Represents loopRef (s.createSubscriber loopRef ws address)
      (r.step (.createSubscriber address)) { b with members := insert ws b.members } := by
  have hnew : address ∉ r.live := fun hlive => by
    simpa [hfree] using (h.refines.live address).mp hlive
  have hothers : ∀ v, (s.sockets v).sub ≠ some address := fun v hv =>
    hnew (h.refs v address hv).1
  have hself : ((s.createSubscriber loopRef ws address).sockets ws).sub = some address := by
    simp [Publishing.createSubscriber]
  have hother : ∀ v, v ≠ ws →
      (s.createSubscriber loopRef ws address).sockets v = s.sockets v := fun v hv => by
    simp [Publishing.createSubscriber, hv]
  have hallowed : s.tree.Allowed (.createSubscriber address) := hfree
  refine ⟨(h.refines.step hallowed).2, fun a ha => ?_, fun v a hv => ?_, fun v => ?_,
    fun v topic => ?_⟩
  · rcases Finset.mem_insert.mp ha with rfl | ha
    · exact ⟨ws, hself⟩
    · obtain ⟨v, hv⟩ := h.owner a ha
      have hne : v ≠ ws := by
        rintro rfl
        simp [hsub] at hv
      exact ⟨v, (congrArg WebSocket.sub (hother v hne)).trans hv⟩
  · by_cases hv' : v = ws
    · subst hv'
      obtain rfl : address = a := Option.some.inj (hself.symm.trans hv)
      simp [Publishing.createSubscriber, Subscriptions.step, hctx, hconn]
    · rw [hother v hv'] at hv ⊢
      obtain ⟨hlive, huser, hworker, hctx⟩ := h.refs v a hv
      have hne : a ≠ address := by
        rintro rfl
        exact hnew hlive
      refine ⟨Finset.mem_insert_of_mem hlive, ?_, ?_, hctx⟩
      · simpa [Publishing.createSubscriber, hne] using huser
      · simpa [Publishing.createSubscriber, hne] using hworker
  · by_cases hv : v = ws
    · simp [hv, hself]
    · simp [hv, hother v hv, h.members]
  · by_cases hv : v = ws
    · subst hv
      have hnone : ∀ topic, (address, topic) ∉ r.rel := fun topic hrel =>
        hnew (h.live_of_rel hrel)
      simp [h.rel, hself, hsub, Subscriptions.step, hnone]
    · simp [h.rel, hother v hv, Subscriptions.step]

/-- A subscription of a socket that has a subscriber. -/
theorem Represents.subscribe_topic (h : Represents loopRef s r b) {a : SubscriberPtr}
    (hsub : (s.sockets ws).sub = some a) (topic : Bytes) {topicAddress : TopicPtr}
    (hfree : s.tree.topicAt topicAddress = none) :
    Represents loopRef { s with tree := (s.tree.subscribe a topic topicAddress).1 }
      (r.step (.subscribe a topic topicAddress)) { b with rel := insert (ws, topic) b.rel } where
  refines := by
    have hallowed : s.tree.Allowed (.subscribe a topic topicAddress) :=
      ⟨(h.refines.live a).mp (h.refs ws a hsub).1, hfree⟩
    exact (h.refines.step hallowed).2
  owner := h.owner
  refs := h.refs
  members := h.members
  rel v t := by
    simp only [Finset.mem_insert, Prod.mk.injEq, h.rel, Subscriptions.step]
    constructor
    · rintro (⟨rfl, rfl⟩ | ⟨a', ha', hrel⟩)
      · exact ⟨a, hsub, .inl ⟨rfl, rfl⟩⟩
      · exact ⟨a', ha', .inr hrel⟩
    · rintro ⟨a', ha', ⟨rfl, rfl⟩ | hrel⟩
      · exact .inl ⟨h.sub_injective ha' hsub, rfl⟩
      · exact .inr ⟨a', ha', hrel⟩

theorem Represents.subscribe (h : Represents loopRef s r b) (topic : Bytes)
    {address : SubscriberPtr} {topicAddress : TopicPtr}
    (hfree : s.tree.topicAt topicAddress = none)
    (hnew : (s.sockets ws).sub = none → s.tree.subscriberAt address = none ∧
      (s.sockets ws).ctx = true ∧ (s.sockets ws).conn = true) :
    ∃ r', Represents loopRef (s.subscribe loopRef ws topic address topicAddress) r'
      { b with members := insert ws b.members, rel := insert (ws, topic) b.rel } := by
  rw [Publishing.subscribe]
  cases hsub : (s.sockets ws).sub with
  | some a =>
    have hmember : ws ∈ b.members := (h.members ws).mpr (by simp [hsub])
    rw [Finset.insert_eq_of_mem hmember]
    exact ⟨_, h.subscribe_topic hsub topic hfree⟩
  | none =>
    obtain ⟨haddress, hctx, hconn⟩ := hnew hsub
    have hmade := h.createSubscriber hsub haddress hctx hconn
    have hself : ((s.createSubscriber loopRef ws address).sockets ws).sub = some address := by
      simp [Publishing.createSubscriber]
    exact ⟨_, hmade.subscribe_topic hself topic hfree⟩

theorem Represents.unsubscribe (h : Represents loopRef s r b) (ws : σ) (topic : Bytes) :
    ∃ r', Represents loopRef (s.unsubscribe ws topic) r'
      { b with rel := b.rel.erase (ws, topic) } := by
  rw [Publishing.unsubscribe]
  cases hsub : (s.sockets ws).sub with
  | none =>
    have hnot : (ws, topic) ∉ b.rel := fun hrel => by
      obtain ⟨a, ha, -⟩ := (h.rel ws topic).mp hrel
      simp [hsub] at ha
    rw [Finset.erase_eq_of_notMem hnot]
    exact ⟨r, h⟩
  | some a =>
    have hallowed : s.tree.Allowed (.unsubscribe a topic) :=
      (h.refines.live a).mp (h.refs ws a hsub).1
    refine ⟨_, (h.refines.step hallowed).2, h.owner, h.refs, h.members, fun v t => ?_⟩
    simp only [Finset.mem_erase, ne_eq, Prod.mk.injEq, h.rel, Subscriptions.step]
    constructor
    · rintro ⟨hne, a', ha', hrel⟩
      refine ⟨a', ha', fun heq => hne ?_, hrel⟩
      obtain ⟨rfl, rfl⟩ := heq
      exact ⟨h.sub_injective ha' hsub, rfl⟩
    · rintro ⟨a', ha', hne, hrel⟩
      refine ⟨fun heq => hne ?_, a', ha', hrel⟩
      obtain ⟨rfl, rfl⟩ := heq
      exact ⟨Option.some.inj (ha'.symm.trans hsub), rfl⟩

theorem Represents.freeSubscriber (h : Represents loopRef s r b) (ws : σ) :
    ∃ r', Represents loopRef (s.freeSubscriber ws) r'
      { b with
        members := b.members.erase ws
        rel := b.rel.filter fun x => x.1 ≠ ws } := by
  have hself : ((s.freeSubscriber ws).sockets ws).sub = none := by
    simp [Publishing.freeSubscriber, setSocket]
  have hother : ∀ v, v ≠ ws → (s.freeSubscriber ws).sockets v = s.sockets v := fun v hv => by
    simp [Publishing.freeSubscriber, setSocket, hv]
  have hkeeps : ∀ a, (s.sockets ws).sub ≠ some a → a ∈ r.live → ∃ v,
      ((s.freeSubscriber ws).sockets v).sub = some a := fun a hne hlive => by
    obtain ⟨v, hv⟩ := h.owner a hlive
    have hvws : v ≠ ws := by
      rintro rfl
      exact hne hv
    exact ⟨v, (congrArg WebSocket.sub (hother v hvws)).trans hv⟩
  have hmembers : ∀ v, v ∈ b.members.erase ws ↔
      ((s.freeSubscriber ws).sockets v).sub.isSome := fun v => by
    by_cases hv : v = ws
    · simp [hv, hself]
    · simp [hv, hother v hv, h.members]
  cases hsub : (s.sockets ws).sub with
  | none =>
    refine ⟨r, ?_, fun a => hkeeps a (by simp [hsub]), fun v a hv => ?_, hmembers, fun v t => ?_⟩
    · have htree : (s.freeSubscriber ws).tree = s.tree := by
        simp [Publishing.freeSubscriber, setSocket, hsub, TopicTree.freeSubscriber]
      exact htree ▸ h.refines
    · by_cases hvws : v = ws
      · simp [hvws, hself] at hv
      · rw [hother v hvws] at hv ⊢
        exact h.refs v a hv
    · by_cases hvws : v = ws
      · simp [hvws, hself]
      · simp [hvws, hother v hvws, h.rel]
  | some a =>
    have hlive := (h.refines.live a).mp (h.refs ws a hsub).1
    have hallowed : s.tree.Allowed (.freeSubscriber (some a)) := fun t ht => by
      obtain rfl := Option.some.inj ht
      exact hlive
    have htree : (s.freeSubscriber ws).tree = s.tree.freeSubscriber (some a) := by
      simp [Publishing.freeSubscriber, setSocket, hsub]
    refine ⟨r.step (.freeSubscriber (some a)), ?_, fun a' ha' => ?_, fun v a' hv => ?_, hmembers,
      fun v t => ?_⟩
    · rw [htree]
      exact (h.refines.step hallowed).2
    · obtain ⟨hne, ha'⟩ := Finset.mem_erase.mp ha'
      exact hkeeps a' (fun heq => hne (Option.some.inj (heq.symm.trans hsub))) ha'
    · by_cases hvws : v = ws
      · simp [hvws, hself] at hv
      · rw [hother v hvws] at hv ⊢
        obtain ⟨hlive', hrefs⟩ := h.refs v a' hv
        refine ⟨Finset.mem_erase.mpr ⟨?_, hlive'⟩, hrefs⟩
        rintro rfl
        exact hvws (h.sub_injective hv hsub)
    · by_cases hvws : v = ws
      · simp [hvws, hself]
      · have hne : ∀ a', (s.sockets v).sub = some a' → a' ≠ a := by
          rintro a' hv rfl
          exact hvws (h.sub_injective hv hsub)
        simp only [Finset.mem_filter, ne_eq, hvws, not_false_eq_true, and_true, h.rel,
          hother v hvws, Subscriptions.step]
        constructor
        · rintro ⟨a', ha', hrel⟩
          exact ⟨a', ha', hrel, hne a' ha'⟩
        · rintro ⟨a', ha', hrel, -⟩
          exact ⟨a', ha', hrel⟩

/-! ### What is posted for a socket -/

/-- The message that a functor carries to a socket. -/
def kind (ws : σ) : Posting σ → Option Bytes
  | .fireWrite v payload => if v = ws then some payload else none
  | .other => none

theorem filterMap_of_nodup {as : List SubscriberPtr} (hnd : as.Nodup) (a : SubscriberPtr)
    (message : Bytes) :
    as.filterMap (fun x => if x = a then some message else none) =
      if a ∈ as then [message] else [] := by
  induction as with
  | nil => rfl
  | cons x as ih =>
    obtain ⟨hx, hnd⟩ := List.nodup_cons.mp hnd
    by_cases hxa : x = a
    · subst hxa
      simp [ih hnd, hx]
    · simp [ih hnd, hxa, Ne.symm hxa]

/-- **A subscriber of the topic is posted the message once**, and nobody else is. -/
theorem Represents.filterMap_posts (h : Represents loopRef s r b) (sender : Option SubscriberPtr)
    (topic message : Bytes) (ws : σ) :
    (s.posts sender topic message).filterMap (fun post => kind ws post.2) =
      if (ws, topic) ∈ b.rel ∧ sender ≠ (s.sockets ws).sub then [message] else [] := by
  obtain ⟨hnodup, hmem, -⟩ := h.refines.publish sender topic message
  have hkind : ∀ d ∈ (s.tree.publish sender topic message).1,
      ((s.callback d).bind fun post => kind ws post.2) =
        if some d.subscriber = (s.sockets ws).sub then some message else none := fun d hd => by
    obtain ⟨a, rfl, hrel, -⟩ := (hmem d).mp hd
    obtain ⟨v, hv, heq⟩ := h.callback_eq (h.live_of_rel hrel) message (FIRST ||| LAST)
    have hiff : v = ws ↔ some a = (s.sockets ws).sub := by
      constructor
      · rintro rfl
        exact hv.symm
      · exact fun hws => h.sub_injective hv hws.symm
    simp [heq, kind, hiff]
  rw [posts, List.filterMap_filterMap, List.filterMap_congr hkind]
  cases hsub : (s.sockets ws).sub with
  | none =>
    have hnot : (ws, topic) ∉ b.rel := fun hrel => by
      obtain ⟨a, ha, -⟩ := (h.rel ws topic).mp hrel
      simp [hsub] at ha
    simp [hnot]
  | some a =>
    have hmap := filterMap_of_nodup hnodup a message
    rw [List.filterMap_map] at hmap
    have hiff : a ∈ (s.tree.publish sender topic message).1.map Delivery.subscriber ↔
        (ws, topic) ∈ b.rel ∧ sender ≠ some a := by
      rw [List.mem_map, h.rel]
      constructor
      · rintro ⟨d, hd, rfl⟩
        obtain ⟨a, rfl, hrel, hne⟩ := (hmem d).mp hd
        exact ⟨⟨a, hsub, hrel⟩, hne⟩
      · rintro ⟨⟨a', ha', hrel⟩, hne⟩
        obtain rfl : a' = a := Option.some.inj (ha'.symm.trans hsub)
        exact ⟨_, (hmem _).mpr ⟨a', rfl, hrel, hne⟩, rfl⟩
    simp only [Option.some.injEq]
    rw [← if_congr hiff rfl rfl, ← hmap]
    rfl

end sockets

variable [DecidableEq ω]

theorem unmoved_queueInLoop (s : Publishing σ ω) (r : ω × Posting σ) :
    Unmoved s (s.queueInLoop r) := ⟨rfl, rfl, rfl, fun _ => rfl, fun _ => id⟩

variable [DecidableEq σ] [DecidableEq τ]

theorem unmoved_runInLoop (threadId : ω → τ) (thread : τ) (s : Publishing σ ω)
    (r : ω × Posting σ) : Unmoved s (s.runInLoop threadId thread r) := by
  rw [runInLoop]
  split
  · exact unmoved_execute s r.2
  · exact unmoved_queueInLoop s r

theorem unmoved_doPendingFunctors (s : Publishing σ ω) (worker : ω) :
    Unmoved s (s.doPendingFunctors worker) := by
  have hqueue : Unmoved s { s with
      queues := Function.update s.queues worker (s.queues worker).doPendingFunctors } :=
    ⟨rfl, rfl, rfl, fun _ => rfl, fun _ => id⟩
  exact hqueue.trans (unmoved_foldl unmoved_execute _ _)

/-- **The board follows the tree** through every step. -/
theorem Represents.step (h : Represents loopRef s r b) {threadId : ω → τ} {op : Op σ ω τ}
    (hallowed : Allowed threadId s op) :
    ∃ r', Represents loopRef (s.step loopRef threadId op) r' (b.step op) := by
  have hkept : ∀ {s' b'}, Unmoved s s' → b'.members = b.members → b'.rel = b.rel →
      ∃ r', Represents loopRef s' r' b' := fun {s' b'} hmoved hmembers hrel => by
    have hs' := h.congr hmoved
    exact ⟨r, hs'.refines, hs'.owner, hs'.refs, hmembers ▸ hs'.members, hrel ▸ hs'.rel⟩
  cases op with
  | setCtx ws => exact hkept (unmoved_setSocket rfl fun _ => rfl) rfl rfl
  | subscribe ws topic address topicAddress => exact h.subscribe topic hallowed.1 hallowed.2
  | unsubscribe ws topic => exact h.unsubscribe ws topic
  | freeSubscriber ws => exact h.freeSubscriber ws
  | publish thread ws topic message =>
    have hmoved := unmoved_foldl (unmoved_runInLoop threadId thread)
      (s.posted (.publish thread ws topic message)) s
    rw [Board.step]
    split
    · exact hkept hmoved rfl rfl
    · exact hkept hmoved rfl rfl
  | broadcast thread topic message =>
    exact hkept (unmoved_foldl (unmoved_runInLoop threadId thread) _ s) rfl rfl
  | queueInLoop worker => exact hkept (unmoved_foldl unmoved_queueInLoop _ s) rfl rfl
  | doPendingFunctors worker => exact hkept (unmoved_doPendingFunctors s worker) rfl rfl
  | inactive ws => exact hkept (unmoved_setSocket rfl id) rfl rfl
  | release ws => exact hkept (unmoved_setSocket rfl id) rfl rfl

end Publishing

end XNetty
