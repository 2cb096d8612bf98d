import XNetty.WebSocket.Publishing

/-!
# What published messages come to

The functors of published messages wait in the queues of the workers, among others. For each
socket, what the board says was published for it is what was queued for it; all of it is written
as long as the ring of its worker has room.

## Main definitions

* `Publishing.Tallied` — the queues and a socket against the board.
* `Publishing.RoomFor` — the ring takes what is published for a socket.
* `Publishing.run_published_iff` — the runs in which a socket sees what was published for it.
-/

namespace XNetty

open Event WebSocket

namespace Publishing

variable {σ ω τ : Type*} {loopRef : σ → ω} {s s' : Publishing σ ω} {r : Subscriptions}
  {b : Board σ} {ws : σ} [DecidableEq ω] [DecidableEq σ] [DecidableEq τ]

/-! ## The queues and the board -/

variable (loopRef) in
/-- What was published for a socket is what was queued for it, all at its own worker, and an active
socket has written what its worker invoked. -/
structure Tallied (s : Publishing σ ω) (ws : σ) (inbox : List Bytes) : Prop where
  sound : ∀ k, (s.queues k).Sound (kind ws)
  queued : (s.queues (loopRef ws)).queued.filterMap (kind ws) = inbox
  astray : ∀ k, k ≠ loopRef ws → (s.queues k).queued.filterMap (kind ws) = []
  written : (s.sockets ws).active = true → (s.sockets ws).written =
    ((s.queues (loopRef ws)).invoked.filterMap (kind ws)).map textFrame

/-- The functor concerns the socket only at the worker of its connection. -/
def PlacedFor (loopRef : σ → ω) (ws : σ) (post : ω × Posting σ) : Prop :=
  kind ws post.2 ≠ none → post.1 = loopRef ws

/-- The ring has room for a functor that concerns the socket. -/
def RoomForPost (ws : σ) (s : Publishing σ ω) (post : ω × Posting σ) : Prop :=
  kind ws post.2 ≠ none → (s.queues post.1).HasRoom

instance (ws : σ) (s : Publishing σ ω) (post : ω × Posting σ) : Decidable (RoomForPost ws s post) :=
  inferInstanceAs (Decidable (_ → _))

/-- Every functor that an operation queues for the socket finds room. -/
def RoomFor (ws : σ) (s : Publishing σ ω) (op : Op σ ω τ) : Prop :=
  Ledger.Along queueInLoop (RoomForPost ws) s (s.posted op)

instance (ws : σ) (s : Publishing σ ω) (op : Op σ ω τ) : Decidable (RoomFor ws s op) :=
  inferInstanceAs (Decidable (Ledger.Along _ _ _ _))

variable {inbox : List Bytes} {post : ω × Posting σ}

omit [DecidableEq ω] in
theorem Tallied.congr (h : Tallied loopRef s ws inbox) (hqueues : s'.queues = s.queues)
    (hsocket : (s'.sockets ws).active = true → (s.sockets ws).active = true ∧
      (s'.sockets ws).written = (s.sockets ws).written) : Tallied loopRef s' ws inbox where
  sound := hqueues ▸ h.sound
  queued := hqueues ▸ h.queued
  astray := hqueues ▸ h.astray
  written hactive := by
    obtain ⟨hwas, hwritten⟩ := hsocket hactive
    rw [hwritten, hqueues, h.written hwas]

omit [DecidableEq σ] in
theorem queues_queueInLoop (s : Publishing σ ω) (post : ω × Posting σ) (k : ω) :
    (s.queueInLoop post).queues k =
      if k = post.1 then (s.queues k).queueInLoop post.2 else s.queues k := by
  by_cases hk : k = post.1
  · subst hk
    simp [queueInLoop]
  · simp [queueInLoop, hk]

theorem Tallied.queueInLoop (h : Tallied loopRef s ws inbox) (hplaced : PlacedFor loopRef ws post) :
    Tallied loopRef (s.queueInLoop post) ws (inbox ++ (kind ws post.2).toList) where
  sound k := by
    rw [queues_queueInLoop]
    split
    · exact (h.sound k).queueInLoop post.2
    · exact h.sound k
  queued := by
    rw [queues_queueInLoop]
    split
    next => rw [PendingFunctors.queued_queueInLoop, PendingFunctors.filterMap_concat, h.queued]
    next hk =>
      have hnone : kind ws post.2 = none := by
        by_contra hsome
        exact hk (hplaced hsome).symm
      rw [h.queued, hnone, Option.toList_none, List.append_nil]
  astray k hk := by
    rw [queues_queueInLoop]
    split
    next hpost =>
      have hnone : kind ws post.2 = none := by
        by_contra hsome
        exact hk (hpost.trans (hplaced hsome))
      rw [PendingFunctors.queued_queueInLoop, PendingFunctors.filterMap_concat, h.astray k hk,
        hnone]
      rfl
    next => exact h.astray k hk
  written hactive := by
    rw [queues_queueInLoop]
    split <;> exact h.written hactive

theorem Tallied.kept_queueInLoop (h : Tallied loopRef s ws inbox)
    (hplaced : PlacedFor loopRef ws post) :
    ((s.queueInLoop post).queues (loopRef ws)).Kept (kind ws) ↔
      (s.queues (loopRef ws)).Kept (kind ws) ∧ RoomForPost ws s post := by
  rw [queues_queueInLoop]
  split
  next hk =>
    rw [(h.sound _).kept_queueInLoop, RoomForPost, ← hk]
  next hk =>
    refine (and_iff_left fun hsome => absurd (hplaced hsome).symm hk).symm

/-- Functors that are queued one after the other. -/
theorem Tallied.foldl_queueInLoop {posts : List (ω × Posting σ)} (h : Tallied loopRef s ws inbox)
    (hplaced : ∀ post ∈ posts, PlacedFor loopRef ws post) :
    Tallied loopRef (posts.foldl Publishing.queueInLoop s) ws
        (inbox ++ posts.filterMap fun post => kind ws post.2) ∧
      (((posts.foldl Publishing.queueInLoop s).queues (loopRef ws)).Kept (kind ws) ↔
        (s.queues (loopRef ws)).Kept (kind ws) ∧
          Ledger.Along Publishing.queueInLoop (RoomForPost ws) s posts) := by
  induction posts generalizing s inbox with
  | nil => exact ⟨by simpa using h, (and_iff_left trivial).symm⟩
  | cons post posts ih =>
    obtain ⟨hpost, hposts⟩ := List.forall_mem_cons.mp hplaced
    obtain ⟨hrest, hkept⟩ := ih (h.queueInLoop hpost) hposts
    refine ⟨?_, ?_⟩
    · have hsplit : inbox ++ (post :: posts).filterMap (fun post => kind ws post.2) =
          inbox ++ (kind ws post.2).toList ++ posts.filterMap fun post => kind ws post.2 := by
        rw [List.filterMap_cons]
        cases kind ws post.2 <;> simp
      rw [hsplit]
      exact hrest
    · rw [List.foldl_cons, hkept, h.kept_queueInLoop hpost, and_assoc, Ledger.Along]

/-! ### A round -/

omit [DecidableEq ω] in
theorem queues_foldl_execute (tasks : List (Posting σ)) (s : Publishing σ ω) :
    (tasks.foldl execute s).queues = s.queues := by
  induction tasks generalizing s with
  | nil => rfl
  | cons task tasks ih =>
    refine (ih (s.execute task)).trans ?_
    cases task with
    | other => rfl
    | fireWrite v payload =>
      rw [execute]
      split <;> rfl

omit [DecidableEq ω] in
theorem execute_socket (ws : σ) (task : Posting σ) (s : Publishing σ ω) :
    ((s.execute task).sockets ws).active = (s.sockets ws).active ∧
      ((s.sockets ws).active = true → ((s.execute task).sockets ws).written =
        (s.sockets ws).written ++ (kind ws task).toList.map textFrame) := by
  cases task with
  | other => simp [execute, kind]
  | fireWrite v payload =>
    rw [execute]
    by_cases hv : v = ws
    · subst hv
      split <;> simp_all [setSocket, kind]
    · split <;> simp [setSocket, kind, hv, Ne.symm hv]

omit [DecidableEq ω] in
theorem foldl_execute_socket (ws : σ) (tasks : List (Posting σ)) (s : Publishing σ ω) :
    ((tasks.foldl execute s).sockets ws).active = (s.sockets ws).active ∧
      ((s.sockets ws).active = true → ((tasks.foldl execute s).sockets ws).written =
        (s.sockets ws).written ++ (tasks.filterMap (kind ws)).map textFrame) := by
  induction tasks generalizing s with
  | nil => simp
  | cons task tasks ih =>
    obtain ⟨hactive, hwritten⟩ := ih (s.execute task)
    obtain ⟨hactive', hwritten'⟩ := execute_socket ws task s
    refine ⟨hactive.trans hactive', fun hwas => ?_⟩
    have hsplit : ((task :: tasks).filterMap (kind ws)).map textFrame =
        (kind ws task).toList.map textFrame ++ (tasks.filterMap (kind ws)).map textFrame := by
      rw [List.filterMap_cons]
      cases kind ws task <;> simp
    rw [List.foldl_cons, hwritten (hactive'.trans hwas), hwritten' hwas, hsplit,
      List.append_assoc]

theorem queues_doPendingFunctors (s : Publishing σ ω) (k k' : ω) :
    (s.doPendingFunctors k).queues k' =
      if k' = k then (s.queues k).doPendingFunctors else s.queues k' := by
  rw [Publishing.doPendingFunctors, queues_foldl_execute]
  exact Function.update_apply ..

theorem active_doPendingFunctors (s : Publishing σ ω) (k : ω) (ws : σ) :
    ((s.doPendingFunctors k).sockets ws).active = (s.sockets ws).active :=
  (foldl_execute_socket ws _ _).1

/-- **A round** writes what waited for the socket. -/
theorem Tallied.doPendingFunctors (h : Tallied loopRef s ws inbox) (k : ω) :
    Tallied loopRef (s.doPendingFunctors k) ws inbox ∧
      (((s.doPendingFunctors k).queues (loopRef ws)).Kept (kind ws) ↔
        (s.queues (loopRef ws)).Kept (kind ws)) := by
  obtain ⟨-, hwritten⟩ := foldl_execute_socket ws (s.queues k).round
    { s with queues := Function.update s.queues k (s.queues k).doPendingFunctors }
  obtain ⟨hsound, -, hinvoked, hqueued⟩ := (h.sound k).doPendingFunctors
  refine ⟨⟨fun k' => ?_, ?_, fun k' hk' => ?_, fun hact => ?_⟩, ?_⟩
  · rw [queues_doPendingFunctors]
    split
    · exact hsound
    · exact h.sound k'
  · rw [queues_doPendingFunctors]
    split
    next hk => rw [hqueued, ← hk, h.queued]
    next => exact h.queued
  · rw [queues_doPendingFunctors]
    split
    next hk => rw [hqueued, ← hk, h.astray k' hk']
    next => exact h.astray k' hk'
  · have hwas := (active_doPendingFunctors s k ws).symm.trans hact
    refine (hwritten hwas).trans ?_
    rw [queues_doPendingFunctors, (h.sound k).round_eq]
    split
    next hk =>
      rw [hinvoked, List.filterMap_append, List.map_append, ← hk, h.written hwas]
    next hk =>
      -- nothing for the socket waits elsewhere
      have hle := (h.sound k).le
      rw [h.astray k (Ne.symm hk), List.length_nil, Nat.le_zero, List.length_eq_zero_iff,
        List.append_eq_nil_iff] at hle
      rw [hle.2, List.map_nil, List.append_nil, h.written hwas]
  · rw [queues_doPendingFunctors]
    split
    next hk => rw [(h.sound k).kept_doPendingFunctors, hk]
    next => exact Iff.rfl

/-! ## A step -/

theorem foldl_runInLoop_eq {threadId : ω → τ} {thread : τ} {posts : List (ω × Posting σ)}
    (h : ∀ post ∈ posts, threadId post.1 ≠ thread) (s : Publishing σ ω) :
    posts.foldl (runInLoop threadId thread) s = posts.foldl queueInLoop s := by
  induction posts generalizing s with
  | nil => rfl
  | cons post posts ih =>
    obtain ⟨hpost, hposts⟩ := List.forall_mem_cons.mp h
    rw [List.foldl_cons, List.foldl_cons, runInLoop, if_neg hpost, ih hposts]

omit [DecidableEq ω] in
theorem Represents.placed_posts (h : Represents loopRef s r b) (sender : Option SubscriberPtr)
    (topic message : Bytes) (ws : σ) :
    ∀ post ∈ s.posts sender topic message, PlacedFor loopRef ws post := by
  intro post hpost hkind
  obtain ⟨v, rfl⟩ := h.mem_posts hpost
  by_cases hv : v = ws
  · rw [hv]
  · exact absurd (by simp [kind, hv]) hkind

/-- **What a step does** for a socket: it queues what is posted and published for it, or lets a
worker run, or touches neither the queues nor what was published. -/
theorem Represents.step_cases (h : Represents loopRef s r b) {threadId : ω → τ} {op : Op σ ω τ}
    (hallowed : Allowed threadId s op) (ws : σ) :
    (s.step loopRef threadId op = (s.posted op).foldl Publishing.queueInLoop s ∧
      (∀ post ∈ s.posted op, PlacedFor loopRef ws post) ∧
      (b.step op).inbox ws =
        b.inbox ws ++ (s.posted op).filterMap fun post => kind ws post.2) ∨
    (∃ k, op = .doPendingFunctors k) ∨
    (s.posted op = [] ∧ (s.step loopRef threadId op).queues = s.queues ∧
      (b.step op).inbox ws = b.inbox ws ∧
      (((s.step loopRef threadId op).sockets ws).active = true → (s.sockets ws).active = true ∧
        ((s.step loopRef threadId op).sockets ws).written = (s.sockets ws).written)) := by
  have hset : ∀ (v : σ) (socket : WebSocket), socket.written = (s.sockets v).written →
      (socket.active = true → (s.sockets v).active = true) →
      ((s.setSocket v socket).sockets ws).active = true → (s.sockets ws).active = true ∧
        ((s.setSocket v socket).sockets ws).written = (s.sockets ws).written := by
    intro v socket hwritten hactive hact
    by_cases hv : ws = v
    · subst hv
      simp only [setSocket, Function.update_self] at hact ⊢
      exact ⟨hactive hact, hwritten⟩
    · simpa [setSocket, hv] using hact
  cases op with
  | setCtx v => exact .inr (.inr ⟨rfl, rfl, rfl, hset v _ rfl id⟩)
  | inactive v => exact .inr (.inr ⟨rfl, rfl, rfl, hset v _ rfl fun h => absurd h (by simp)⟩)
  | release v => exact .inr (.inr ⟨rfl, rfl, rfl, hset v _ rfl fun h => absurd h (by simp)⟩)
  | freeSubscriber v => exact .inr (.inr ⟨rfl, rfl, rfl, hset v _ rfl id⟩)
  | unsubscribe v topic =>
    refine .inr (.inr ⟨rfl, ?_, rfl, fun hact => ?_⟩)
    · rw [Publishing.step, Publishing.unsubscribe]
      split <;> rfl
    · rw [Publishing.step, Publishing.unsubscribe] at hact ⊢
      split at hact <;> exact ⟨hact, rfl⟩
  | subscribe v topic address topicAddress =>
    refine .inr (.inr ⟨rfl, ?_, rfl, ?_⟩)
    · rw [Publishing.step, Publishing.subscribe]
      split <;> rfl
    · rw [Publishing.step, Publishing.subscribe]
      split
      next => exact fun hact => ⟨hact, rfl⟩
      next => exact hset v _ rfl id
  | queueInLoop k =>
    refine .inl ⟨rfl, fun post hpost hkind => ?_, (List.append_nil _).symm⟩
    obtain rfl := List.mem_singleton.mp hpost
    exact absurd rfl hkind
  | doPendingFunctors k => exact .inr (.inl ⟨k, rfl⟩)
  | broadcast thread topic message =>
    refine .inl ⟨foldl_runInLoop_eq hallowed s, h.placed_posts none topic message ws, ?_⟩
    rw [posted, h.filterMap_posts none topic message ws, Board.step, Board.post]
    dsimp only
    by_cases hrel : (ws, topic) ∈ b.rel
    · obtain ⟨a, ha, -⟩ := (h.rel ws topic).mp hrel
      simp [hrel, ha]
    · simp [hrel]
  | publish thread v topic message =>
    refine .inl ⟨foldl_runInLoop_eq hallowed s, ?_, ?_⟩
    · rw [posted]
      split
      next => simp
      next a _ => exact h.placed_posts (some a) topic message ws
    · rw [posted, Board.step]
      cases hsub : (s.sockets v).sub with
      | none =>
        have hnot : v ∉ b.members := by simp [h.members, hsub]
        simp [hnot]
      | some a =>
        have hmember : v ∈ b.members := by simp [h.members, hsub]
        have hself : some v ≠ some ws ↔ some a ≠ (s.sockets ws).sub := by
          rw [not_iff_not, Option.some.injEq]
          constructor
          · rintro rfl
            exact hsub.symm
          · exact fun heq => h.sub_injective hsub heq.symm
        simp only [h.filterMap_posts (some a) topic message ws, if_pos hmember, Board.post, hself]
        split <;> simp

/-- What the steps keep, with the condition that keeps every functor of the socket. -/
theorem Tallied.step (h : Represents loopRef s r b) (ht : Tallied loopRef s ws (b.inbox ws))
    {threadId : ω → τ} {op : Op σ ω τ} (hallowed : Allowed threadId s op) :
    Tallied loopRef (s.step loopRef threadId op) ws ((b.step op).inbox ws) ∧
      (((s.step loopRef threadId op).queues (loopRef ws)).Kept (kind ws) ↔
        (s.queues (loopRef ws)).Kept (kind ws) ∧ RoomFor ws s op) := by
  rcases h.step_cases hallowed ws with ⟨hstep, hplaced, hinbox⟩ | ⟨k, rfl⟩ |
    ⟨hposted, hqueues, hinbox, hsocket⟩
  · rw [hstep, hinbox]
    exact ht.foldl_queueInLoop hplaced
  · obtain ⟨hround, hkept⟩ := ht.doPendingFunctors k
    exact ⟨hround, hkept.trans (and_iff_left trivial).symm⟩
  · rw [hinbox, hqueues, RoomFor, hposted]
    exact ⟨ht.congr hqueues hsocket, (and_iff_left trivial).symm⟩

/-! ## Runs -/

theorem Tallied.run (h : Represents loopRef s r b) (ht : Tallied loopRef s ws (b.inbox ws))
    {threadId : ω → τ} {ops : List (Op σ ω τ)}
    (hallowed : Ledger.Along (Publishing.step loopRef threadId) (Allowed threadId) s ops) :
    Tallied loopRef (s.run loopRef threadId ops) ws ((b.run ops).inbox ws) ∧
      (((s.run loopRef threadId ops).queues (loopRef ws)).Kept (kind ws) ↔
        (s.queues (loopRef ws)).Kept (kind ws) ∧
          Ledger.Along (Publishing.step loopRef threadId) (RoomFor ws) s ops) := by
  induction ops generalizing s r b with
  | nil => exact ⟨ht, (and_iff_left trivial).symm⟩
  | cons op ops ih =>
    obtain ⟨r', hstep⟩ := h.step hallowed.1
    obtain ⟨htally, hkept⟩ := ht.step h hallowed.1
    obtain ⟨hrun, hall⟩ := ih hstep htally hallowed.2
    refine ⟨hrun, hall.trans ?_⟩
    rw [hkept, and_assoc, Ledger.Along]

omit [DecidableEq ω] [DecidableEq σ] in
theorem represents_start (loopRef : σ → ω) (ring : SpscQueue (Posting σ)) :
    Represents loopRef (start σ ω ring) {} {} where
  refines := TopicTree.refines_empty
  owner a ha := by simp at ha
  refs v a hv := by simp [start] at hv
  members v := by simp [start]
  rel v topic := by simp [start]

omit [DecidableEq ω] in
theorem tallied_start {n : ℕ} {ring : SpscQueue (Posting σ)} (hring : SpscQueue.new n = some ring)
    (ws : σ) : Tallied loopRef (start σ ω ring) ws [] where
  sound _ := (PendingFunctors.sound_new hring).1
  queued := rfl
  astray _ _ := rfl
  written _ := rfl

theorem textFrame_injective : Function.Injective textFrame := fun _ _ h =>
  congrArg WebSocketFrame.payload h

/-- **A subscriber sees what is published for it**: once the worker of its connection has run, an
active socket has written everything that was published to its topics by others, once and in
order, exactly if the ring of its worker had room for each of these messages. -/
theorem run_published_iff {n : ℕ} {ring : SpscQueue (Posting σ)}
    (hring : SpscQueue.new n = some ring) (loopRef : σ → ω) (threadId : ω → τ)
    (ops : List (Op σ ω τ))
    (hallowed : Ledger.Along (Publishing.step loopRef threadId) (Allowed threadId)
      (start σ ω ring) ops) (ws : σ)
    (hactive : (((start σ ω ring).run loopRef threadId ops).sockets ws).active = true) :
    ((((start σ ω ring).run loopRef threadId ops).doPendingFunctors (loopRef ws)).sockets
        ws).written = ((Board.run {} ops).inbox ws).map textFrame ↔
      Ledger.Along (Publishing.step loopRef threadId) (RoomFor ws) (start σ ω ring) ops := by
  obtain ⟨htally, hkept⟩ := (tallied_start hring ws).run (represents_start loopRef ring) hallowed
  obtain ⟨hround, hround'⟩ := htally.doPendingFunctors (loopRef ws)
  have hnew := PendingFunctors.kept_new hring (kind ws)
  have hall := hround'.trans (hkept.trans (and_iff_right hnew))
  have hactive' := (active_doPendingFunctors _ (loopRef ws) ws).trans hactive
  -- nothing waits any more, so what is kept has been invoked
  have htasks : ((((start σ ω ring).run loopRef threadId ops).doPendingFunctors
      (loopRef ws)).queues (loopRef ws)).tasks = [] := by
    rw [queues_doPendingFunctors, if_pos rfl]
    exact (htally.sound (loopRef ws)).doPendingFunctors.2.1
  rw [← hall, PendingFunctors.Kept, htasks, List.filterMap_nil, List.append_nil, hround.queued,
    hround.written hactive', (List.map_injective_iff.mpr textFrame_injective).eq_iff, eq_comm]

/-- Two sockets of a topic, one of which publishes to it while a thread broadcasts. -/
def talk : List (Op ℕ ℕ ℕ) :=
  [.setCtx 0, .setCtx 1, .subscribe 0 (ascii "chat") 5 9, .subscribe 1 (ascii "chat") 6 10,
    .publish 1 0 (ascii "chat") (ascii "hi"), .doPendingFunctors 1,
    .broadcast 2 (ascii "chat") (ascii "bye")]

/-- The other socket, in another worker, sees both messages. -/
theorem run_published_iff_talk :
    ((((start ℕ ℕ (.smallest _)).run id (fun _ => 0) talk).doPendingFunctors 1).sockets
        1).written = [textFrame (ascii "hi"), textFrame (ascii "bye")] := by
  have hallowed : Ledger.Along (Publishing.step id fun _ => 0) (Allowed fun _ => 0)
      (start ℕ ℕ (.smallest _)) talk := by
    refine ⟨trivial, trivial, ⟨rfl, fun _ => ⟨rfl, rfl, rfl⟩⟩, ⟨rfl, fun _ => ⟨rfl, rfl, rfl⟩⟩, ?_,
      trivial, ?_, trivial⟩
    · exact fun _ _ => show 0 ≠ 1 by decide
    · exact fun _ _ => show 0 ≠ 2 by decide
  refine ((run_published_iff (SpscQueue.new_smallest _) id (fun _ => 0) talk hallowed 1 rfl).mpr
    ?_).trans ?_
  · decide +kernel
  · decide +kernel

end Publishing

end XNetty
