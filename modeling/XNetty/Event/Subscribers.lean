import XNetty.Event.Lifecycle.Run
import XNetty.WebSocket.Subscriptions

/-!
# Subscribers of removed connections

The `Subscriber` of a connection goes with its `WebSocket`, and unlinking it from the topic tree
is left to whoever frees it: the `CLOSE` branch, `WebSocket::close`, and `channelInactive` of the
`WebSocketHandler`. A removal that comes without `channelInactive` leaves the tree with a pointer
to it.

## Main definitions

* `Leaving` — nobody will free the connection's subscriber any more.
* `unlinks` — the discipline under which a removed connection is in no topic.
* `Unlinked` — its invariant.
-/

namespace XNetty.Event

open Reentrant WebSocket

namespace Conn

/-- The topics of the connection's subscriber. -/
def topics (c : Conn) : List Bytes := (c.sub.map Subscription.topics).getD []

/-! ### Who touches the subscriber -/

theorem flush_sub (c : Conn) : c.flush.sub = c.sub := by
  unfold flush flushWriteBuf
  split
  · split
    · rfl
    · split <;> rfl
  · rfl

theorem close_sub (c : Conn) : c.close.1.sub = c.sub := by
  unfold close
  split <;> rfl

theorem fireWrite_sub (c : Conn) (buf : ByteBuf) : (c.fireWrite buf).1.sub = c.sub := by
  rw [fireWrite_eq]
  split
  · split
    · exact (c.append buf).close_sub
    · exact (c.append buf).flush_sub
  · rfl

theorem setKeepAlive_sub (c : Conn) (ka : Bool) : (c.setKeepAlive ka).sub = c.sub := by
  unfold setKeepAlive
  split <;> rfl

theorem peerAddress_sub (c : Conn) : c.peerAddress.sub = c.sub := by
  unfold peerAddress
  split <;> rfl

theorem visit_sub (c : Conn) (ev : LifeEvent) (i : ℕ) (h : HandlerEntry) :
    (c.visit ev i h).sub = if h.webSocket && ev = .inactive then none else c.sub := by
  unfold visit
  split <;> split <;> rfl

/-- Handlers give the subscriber up, or leave it alone. -/
theorem fireNext_sub (c : Conn) (ev : LifeEvent) (i : ℕ) :
    (c.fireNext ev i).1.sub = c.sub ∨ (c.fireNext ev i).1.sub = none := by
  unfold fireNext
  split
  · exact .inl rfl
  · split
    · exact .inl rfl
    · rw [visit_sub]
      split
      · exact .inr rfl
      · exact .inl rfl

theorem fireNext_read_sub (c : Conn) (i : ℕ) : (c.fireNext .read i).1.sub = c.sub := by
  unfold fireNext
  split
  · rfl
  · split
    · rfl
    · simp [visit_sub]

theorem onRead_sub (c : Conn) (n : ReadResult) : (c.onRead n).1.sub = c.sub := by
  unfold onRead
  split
  · cases n with
    | data => exact fireNext_read_sub _ 0
    | _ => rfl
  · rfl

theorem onWrite_sub (c : Conn) : c.onWrite.sub = c.sub := by
  unfold onWrite
  split <;> rfl

theorem deliver_sub (c : Conn) (ev : LifeEvent) (k : ℕ) :
    (c.deliver ev k).1.sub = c.sub ∨ (c.deliver ev k).1.sub = none := by
  unfold deliver
  split
  · split <;> exact .inl rfl
  · split
    · rw [visit_sub]
      split
      · exact .inr rfl
      · exact .inl rfl
    · exact .inl rfl

end Conn

variable {ι : Type*} [DecidableEq ι]

theorem go_sub (f : Frame) (c : Conn) :
    ((worker ι).go f c).1.sub = c.sub ∨ ((worker ι).go f c).1.sub = none := by
  cases f with
  | setup fd handlers waterMark =>
    simp only [worker, Conn.setupConnection]
    split <;> exact .inl rfl
  | onRead n => exact .inl (c.onRead_sub n)
  | onWrite => exact .inl c.onWrite_sub
  | onError =>
    simp only [worker, Conn.onError]
    split <;> exact .inl rfl
  | removeConn =>
    simp only [worker, Conn.removeConn]
    split <;> exact .inl rfl
  | closeChannel =>
    simp only [worker, Conn.closeChannel]
    split <;> exact .inl rfl
  | deliver ev k => exact c.deliver_sub ev k
  | release =>
    simp only [worker, Conn.release]
    split
    · split <;> exact .inl rfl
    · exact .inl rfl
  | _ => exact .inl rfl

/-! ### The discipline -/

/-- A `WebSocketHandler` has yet to see `channelInactive`. -/
def ToBeFreed (c : Conn) (fs : List Frame) : Prop :=
  ∃ k w h, .deliver .inactive k ∈ fs ∧ k ≤ w ∧ c.handlers[w]? = some h ∧ h.webSocket

/-- The connection is being removed, or has been, and nobody will free its subscriber. -/
def Leaving (c : Conn) (fs : List Frame) : Prop :=
  c.cleared ∨ .closeChannel ∈ fs ∨ (∃ k, .deliver .removed k ∈ fs) ∨
    .removeConn ∈ fs ∧ ¬ ToBeFreed c fs

/-- A connection that is found closed at the end of `onRead` is in no topic, and a connection
that is leaving does not subscribe. -/
def unlinks : Discipline Conn Frame Api where
  go f c _ := f = .checkClosed → c.closed → c.topics = []
  call a c fs := ∀ topic address cell, a = .subscribe topic address cell → c.hasWebSocket →
    ¬ Leaving c fs

/-- A leaving connection is in no topic. Loops over handlers stand above the other frames. -/
structure Unlinked (c : Conn) (fs : List Frame) : Prop where
  sorted : fs.Pairwise fun f g => g.quiet → f.quiet
  plain : c.hasWebSocket = false → c.sub = none
  unborn : c.stage = .unborn → c.handlers = []
  leaving : Leaving c fs → c.topics = []

theorem unlinked_new (socket : Socket) : Unlinked { socket := socket } [] :=
  ⟨.nil, fun _ => rfl, fun _ => rfl, fun _ => rfl⟩

theorem topics_of_sub {c c' : Conn} (h : c'.sub = c.sub ∨ c'.sub = none) (hnil : c.topics = []) :
    c'.topics = [] := by
  rcases h with h | h
  · rwa [Conn.topics, h]
  · rw [Conn.topics, h]
    rfl

/-- A step that subscribes to nothing. -/
theorem Unlinked.step {c c' : Conn} {fs fs' : List Frame} (h : Unlinked c fs)
    (hsorted : fs'.Pairwise fun f g => g.quiet → f.quiet)
    (hstage : c'.stage = .unborn → c.stage = .unborn)
    (hhandlers : c'.handlers = c.handlers) (hsub : c'.sub = c.sub ∨ c'.sub = none)
    (hleaving : Leaving c' fs' → Leaving c fs ∨ c'.topics = []) : Unlinked c' fs' where
  sorted := hsorted
  plain := by
    intro hplain
    rw [Conn.hasWebSocket, hhandlers] at hplain
    rcases hsub with hsub | hsub
    · exact hsub.trans (h.plain hplain)
    · exact hsub
  unborn := fun hunborn => hhandlers.trans (h.unborn (hstage hunborn))
  leaving := fun hl => (hleaving hl).elim (fun hl => topics_of_sub hsub (h.leaving hl)) id

/-! ### What the worker does -/

/-- Frames by which no connection leaves. -/
def Frame.harmless : Frame → Bool
  | .deliver ev _ => ev ≠ .removed
  | .removeConn | .closeChannel => false
  | _ => true

theorem leaving_append {c c' : Conn} {fs gs : List Frame} (hcleared : c'.cleared = c.cleared)
    (hhandlers : c'.handlers = c.handlers) (hgs : ∀ g ∈ gs, g.harmless)
    (h : Leaving c' (gs ++ fs)) : Leaving c fs := by
  have hmem : ∀ f : Frame, f.harmless = false → f ∈ gs ++ fs → f ∈ fs := by
    intro f hf hmem
    rcases List.mem_append.mp hmem with hmem | hmem
    · rw [hgs f hmem] at hf
      cases hf
    · exact hmem
  rcases h with h | h | ⟨k, h⟩ | ⟨h, hnot⟩
  · exact .inl (hcleared ▸ h)
  · exact .inr (.inl (hmem _ rfl h))
  · exact .inr (.inr (.inl ⟨k, hmem _ (by simp [Frame.harmless]) h⟩))
  · refine .inr (.inr (.inr ⟨hmem _ rfl h, ?_⟩))
    rintro ⟨k, w, entry, hk, hw, hget, hws⟩
    exact hnot ⟨k, w, entry, List.mem_append_right _ hk, hw, by rwa [hhandlers], hws⟩

theorem leaving_cons {c : Conn} {f : Frame} {fs : List Frame} (hf : ∀ k, f ≠ .deliver .inactive k)
    (h : Leaving c fs) : Leaving c (f :: fs) := by
  rcases h with h | h | ⟨k, h⟩ | ⟨h, hnot⟩
  · exact .inl h
  · exact .inr (.inl (List.mem_cons_of_mem _ h))
  · exact .inr (.inr (.inl ⟨k, List.mem_cons_of_mem _ h⟩))
  · refine .inr (.inr (.inr ⟨List.mem_cons_of_mem _ h, ?_⟩))
    rintro ⟨k, w, entry, hk, hrest⟩
    rcases List.mem_cons.mp hk with heq | hk
    · exact hf k heq.symm
    · exact hnot ⟨k, w, entry, hk, hrest⟩

/-- Below a frame that is no loop there are no loops. -/
theorem Unlinked.below {c : Conn} {f : Frame} {fs : List Frame} (h : Unlinked c (f :: fs))
    (hf : ¬ f.quiet) : ∀ g ∈ fs, ¬ g.quiet :=
  fun g hg hquiet => hf ((List.pairwise_cons.mp h.sorted).1 g hg hquiet)

theorem sorted_append {fs : List Frame} (hfs : ∀ f ∈ fs, ¬ f.quiet) (gs : List Frame)
    (hgs : gs.Pairwise fun f g => g.quiet → f.quiet) :
    (gs ++ fs).Pairwise fun f g => g.quiet → f.quiet := by
  rw [List.pairwise_append]
  refine ⟨hgs, ?_, fun _ _ g hg hquiet => absurd hquiet (hfs g hg)⟩
  exact List.pairwise_of_forall_mem_list fun _ _ g hg hquiet => absurd hquiet (hfs g hg)

/-- A function that neither ends a removal nor begins one. -/
theorem Unlinked.exchange {c c' : Conn} {f : Frame} {fs gs : List Frame}
    (h : Unlinked c (f :: fs)) (hf : ¬ f.quiet) (hstage : c'.stage = .unborn → c.stage = .unborn)
    (hhandlers : c'.handlers = c.handlers) (hcleared : c'.cleared = c.cleared)
    (hsub : c'.sub = c.sub) (hgs : ∀ g ∈ gs, g.harmless)
    (hsorted : gs.Pairwise fun f g => g.quiet → f.quiet) : Unlinked c' (gs ++ fs) := by
  refine h.step (sorted_append (h.below hf) gs hsorted) hstage hhandlers (.inl hsub)
    fun hl => .inl ?_
  refine leaving_cons (fun k heq => ?_) (leaving_append hcleared hhandlers hgs hl)
  rw [heq] at hf
  exact hf rfl

/-- A removal begins with `channelInactive`. -/
theorem Unlinked.end {c c' : Conn} {f : Frame} {fs : List Frame} (h : Unlinked c (f :: fs))
    (hf : ¬ f.quiet) {closed : Bool} (hstatus : c'.status = { c.status with closed })
    (hsub : c'.sub = c.sub) : Unlinked c' (.deliver .inactive 0 :: .removeConn :: fs) := by
  have hhandlers : c'.handlers = c.handlers := congrArg Status.handlers hstatus
  have hstage : c'.stage = c.stage := congrArg Status.stage hstatus
  have hcleared : c'.cleared = c.cleared := congrArg Status.cleared hstatus
  refine h.step (sorted_append (h.below hf) [.deliver .inactive 0, .removeConn]
    (by simp [Frame.quiet])) (fun hunborn => hstage.symm.trans hunborn) hhandlers (.inl hsub)
    fun hl => ?_
  rcases hl with hl | hl | ⟨k, hl⟩ | ⟨-, hnot⟩
  · exact .inl (.inl (hcleared ▸ hl))
  · exact .inl (.inr (.inl (List.mem_cons_of_mem _ (by simpa using hl))))
  · exact .inl (.inr (.inr (.inl ⟨k, List.mem_cons_of_mem _ (by simpa using hl)⟩)))
  · refine .inr (topics_of_sub (.inl hsub) ?_)
    have hplain : c.hasWebSocket = false := by
      by_contra hws
      simp only [Conn.hasWebSocket, Bool.not_eq_false, List.any_eq_true] at hws
      obtain ⟨entry, hmem, hws⟩ := hws
      obtain ⟨w, hget⟩ := List.mem_iff_getElem?.mp hmem
      exact hnot ⟨0, w, entry, List.mem_cons_self, Nat.zero_le w, by rwa [hhandlers], hws⟩
    rw [Conn.topics, h.plain hplain]
    rfl

/-- A frame of a removal gives way to the next, or is done. -/
theorem Unlinked.advance {c c' : Conn} {f : Frame} {fs gs : List Frame}
    (h : Unlinked c (f :: fs)) (hf : ¬ f.quiet) (hstage : c'.stage = c.stage)
    (hhandlers : c'.handlers = c.handlers) (hsub : c'.sub = c.sub)
    (hleaving : Leaving c (f :: fs)) (hsorted : gs.Pairwise fun f g => g.quiet → f.quiet) :
    Unlinked c' (gs ++ fs) :=
  h.step (sorted_append (h.below hf) gs hsorted) (fun hunborn => hstage.symm.trans hunborn)
    hhandlers (.inl hsub) fun _ => .inl hleaving

theorem unlinked_removeConn {c : Conn} {fs : List Frame} (h : Unlinked c (.removeConn :: fs)) :
    Unlinked c.removeConn.1 (ownFrames c.removeConn.2 ++ fs) := by
  have hleaving : Leaving c (.removeConn :: fs) := by
    refine .inr (.inr (.inr ⟨List.mem_cons_self, ?_⟩))
    rintro ⟨k, w, entry, hk, -⟩
    rcases List.mem_cons.mp hk with heq | hk
    · cases heq
    · exact h.below (by simp [Frame.quiet]) _ hk rfl
  have hstatus := c.removeConn_status
  refine h.advance (by simp [Frame.quiet]) (congrArg Status.stage hstatus)
    (congrArg Status.handlers hstatus) ?_ hleaving ?_
  · unfold Conn.removeConn
    split <;> rfl
  · unfold Conn.removeConn
    split <;> simp [Frame.quiet]

theorem unlinked_closeChannel {c : Conn} {fs : List Frame} (h : Unlinked c (.closeChannel :: fs)) :
    Unlinked c.closeChannel.1 (ownFrames c.closeChannel.2 ++ fs) := by
  have hsame : c.closeChannel.1.stage = c.stage ∧ c.closeChannel.1.handlers = c.handlers ∧
      c.closeChannel.1.sub = c.sub := by
    unfold Conn.closeChannel
    cases c.fd <;> exact ⟨rfl, rfl, rfl⟩
  exact h.advance (by simp [Frame.quiet]) hsame.1 hsame.2.1 hsame.2.2
    (.inr (.inl List.mem_cons_self)) (by simp [Conn.closeChannel])

theorem unlinked_checkClosed {c : Conn} {fs : List Frame}
    (hd : unlinks.go .checkClosed c fs) (h : Unlinked c (.checkClosed :: fs)) :
    Unlinked c (ownFrames (if c.closed then [.frame .removeConn] else []) ++ fs) := by
  cases hclosed : c.closed with
  | true =>
    exact h.step (sorted_append (h.below (by simp [Frame.quiet])) [.removeConn] (by simp)) id rfl
      (.inl rfl) fun _ => .inr (hd rfl hclosed)
  | false =>
    have hnext : Unlinked c ([] ++ fs) :=
      h.exchange (by simp [Frame.quiet]) id rfl rfl rfl (by simp) .nil
    exact hnext

theorem pipeline_getElem? {c : Conn} {k : ℕ} {entry : HandlerEntry}
    (h : c.pipeline[k]? = some entry) : c.handlers[k]? = some entry := by
  unfold Conn.pipeline at h
  split at h
  · cases h
  · exact h

/-- What the loop over `channelInactive` may make of a leaving connection. -/
theorem leaving_inactive {c : Conn} {k : ℕ} {fs : List Frame}
    (h : Leaving (c.deliver .inactive k).1 (ownFrames (c.deliver .inactive k).2 ++ fs)) :
    Leaving c (.deliver .inactive k :: fs) ∨ (c.deliver .inactive k).1.topics = [] := by
  unfold Conn.deliver at *
  cases hentry : c.pipeline[k]? with
  | none =>
    simp only [hentry] at h
    refine .inl ?_
    rcases h with h | h | ⟨j, h⟩ | ⟨h, hnot⟩
    · exact .inl h
    · exact .inr (.inl (List.mem_cons_of_mem _ h))
    · exact .inr (.inr (.inl ⟨j, List.mem_cons_of_mem _ h⟩))
    · by_cases hcleared : c.cleared
      · exact .inl hcleared
      · refine .inr (.inr (.inr ⟨List.mem_cons_of_mem _ h, ?_⟩))
        rintro ⟨j, w, entry, hj, hw, hget, hws⟩
        rcases List.mem_cons.mp hj with heq | hj
        · cases heq
          have hlt := (List.getElem?_eq_some_iff.mp hget).1
          have hend : c.handlers.length ≤ k := by simpa [Conn.pipeline, hcleared] using hentry
          omega
        · exact hnot ⟨j, w, entry, hj, hw, hget, hws⟩
  | some entry =>
    have hreaches : LifeEvent.inactive.reaches entry := by simp [LifeEvent.reaches]
    simp only [hentry, hreaches, if_true] at h ⊢
    have hhandlers : (c.visit .inactive k entry).handlers = c.handlers :=
      congrArg Status.handlers (c.visit_status .inactive k entry)
    have hcleared : (c.visit .inactive k entry).cleared = c.cleared :=
      congrArg Status.cleared (c.visit_status .inactive k entry)
    by_cases hws : entry.webSocket
    · refine .inr ?_
      rw [Conn.topics, c.visit_sub]
      simp [hws]
    · refine .inl ?_
      rcases h with h | h | ⟨j, h⟩ | ⟨h, hnot⟩
      · exact .inl (hcleared ▸ h)
      · exact .inr (.inl (List.mem_cons_of_mem _ (by simpa using h)))
      · exact .inr (.inr (.inl ⟨j, List.mem_cons_of_mem _ (by simpa using h)⟩))
      · refine .inr (.inr (.inr ⟨List.mem_cons_of_mem _ (by simpa using h), ?_⟩))
        rintro ⟨j, w, entry', hj, hw, hget, hws'⟩
        rcases List.mem_cons.mp hj with heq | hj
        · cases heq
          -- handler `k` is no `WebSocketHandler`, so the one to come is behind it
          have hne : w ≠ k := by
            rintro rfl
            rw [pipeline_getElem? hentry] at hget
            cases hget
            exact hws hws'
          exact hnot ⟨k + 1, w, entry', List.mem_cons_self, by omega, by rwa [hhandlers], hws'⟩
        · exact hnot ⟨j, w, entry', List.mem_cons_of_mem _ hj, hw, by rwa [hhandlers], hws'⟩

/-- A loop over the handlers goes on. -/
theorem unlinked_deliver {c : Conn} {ev : LifeEvent} {k : ℕ} {fs : List Frame}
    (h : Unlinked c (.deliver ev k :: fs)) :
    Unlinked (c.deliver ev k).1 (ownFrames (c.deliver ev k).2 ++ fs) := by
  have hstatus := c.deliver_status ev k
  have hstage : (c.deliver ev k).1.stage = c.stage := congrArg Status.stage hstatus
  have hsorted := (List.pairwise_cons.mp h.sorted).2
  have hgs : (ownFrames (c.deliver ev k).2 ++ fs).Pairwise fun f g => g.quiet → f.quiet := by
    unfold Conn.deliver
    split
    · exact hsorted
    · split <;> exact List.pairwise_cons.mpr ⟨fun _ _ _ => rfl, hsorted⟩
  refine h.step hgs (fun hunborn => hstage.symm.trans hunborn) (congrArg Status.handlers hstatus)
    (c.deliver_sub ev k) fun hl => ?_
  by_cases hremoved : ev = .removed
  · exact .inl (.inr (.inr (.inl ⟨k, by simp [hremoved]⟩)))
  · by_cases hinactive : ev = .inactive
    · subst hinactive
      exact leaving_inactive hl
    · have hcleared : (c.deliver ev k).1.cleared = c.cleared := by
        unfold Conn.deliver
        split
        · rw [if_neg hremoved]
        · split
          · exact congrArg Status.cleared (c.visit_status ..)
          · rfl
      refine .inl (leaving_cons (fun j heq => ?_) (leaving_append hcleared
        (congrArg Status.handlers hstatus) ?_ hl))
      · cases heq
        exact hinactive rfl
      · unfold Conn.deliver
        split
        · simp
        · split <;> simp [Frame.harmless, hremoved]

theorem unlinked_setup {c : Conn} {fd : ℕ} {handlers : List HandlerEntry} {waterMark : ℕ}
    {fs : List Frame} (h : Unlinked c (.setup fd handlers waterMark :: fs)) :
    Unlinked (c.setupConnection fd handlers waterMark).1
      (ownFrames (c.setupConnection fd handlers waterMark).2 ++ fs) := by
  unfold Conn.setupConnection
  split
  · rename_i hunborn
    have hsub : c.sub = none := h.plain (by simp [Conn.hasWebSocket, h.unborn hunborn])
    refine ⟨sorted_append (h.below (by simp [Frame.quiet])) _ (by simp [Frame.quiet]),
      fun _ => hsub,
      nofun, fun _ => ?_⟩
    change (c.sub.map Subscription.topics).getD [] = []
    rw [hsub]
    rfl
  · have hnext : Unlinked c ([] ++ fs) :=
      h.exchange (by simp [Frame.quiet]) id rfl rfl rfl (by simp) .nil
    exact hnext

theorem unlinked_onRead {c : Conn} {n : ReadResult} {fs : List Frame}
    (h : Unlinked c (.onRead n :: fs)) :
    Unlinked (c.onRead n).1 (ownFrames (c.onRead n).2 ++ fs) := by
  have hstatus := c.onRead_status n
  have hsub := c.onRead_sub n
  have hstage : (c.onRead n).1.stage = c.stage := congrArg Status.stage hstatus
  have hexchange : ∀ gs : List Frame, (∀ g ∈ gs, g.harmless) →
      gs.Pairwise (fun f g => g.quiet → f.quiet) → Unlinked (c.onRead n).1 (gs ++ fs) :=
    fun gs hgs hsorted => h.exchange (by simp [Frame.quiet])
      (fun hunborn => hstage.symm.trans hunborn) (congrArg Status.handlers hstatus)
      (congrArg Status.cleared hstatus) hsub hgs hsorted
  have hend := h.end (by simp [Frame.quiet]) hstatus hsub
  unfold Conn.onRead at *
  by_cases hserves : c.serves
  · simp only [hserves, if_true] at *
    cases n with
    | data =>
      simp only [ownFrames_append, Conn.fireNext_frames, List.nil_append]
      exact hexchange [.deliver .readComplete 0, .checkClosed] (by simp [Frame.harmless])
        (by simp [Frame.quiet])
    | again => exact hexchange [] (by simp) .nil
    | eof => exact hend
    | fail => exact hend
  · simp only [hserves] at *
    exact hexchange [] (by simp) .nil

theorem unlinked_go {f : Frame} {c : Conn} {fs : List Frame} (hd : unlinks.go f c fs)
    (h : Unlinked c (f :: fs)) :
    Unlinked ((worker ι).go f c).1 (ownFrames ((worker ι).go f c).2 ++ fs) := by
  cases f with
  | setup fd handlers waterMark => exact unlinked_setup h
  | activate =>
    exact h.exchange (by simp [Frame.quiet]) id rfl rfl rfl (by simp [worker, Frame.harmless])
      (by simp [worker, Frame.quiet])
  | add => exact h.exchange (by simp [Frame.quiet]) id rfl rfl rfl (by simp [worker]) .nil
  | onRead n => exact unlinked_onRead h
  | checkClosed => exact unlinked_checkClosed hd h
  | onWrite =>
    have hstatus := c.onWrite_status
    have hstage : c.onWrite.stage = c.stage := congrArg Status.stage hstatus
    exact h.exchange (by simp [Frame.quiet]) (fun hunborn => hstage.symm.trans hunborn)
      (congrArg Status.handlers hstatus) (congrArg Status.cleared hstatus) c.onWrite_sub
      (by simp [worker]) .nil
  | onError =>
    simp only [worker, Conn.onError]
    by_cases hserves : c.serves
    · rw [if_pos hserves]
      have hstatus : ({ c with closed := true } : Conn).status =
          { c.status with closed := true } := rfl
      exact h.end (by simp [Frame.quiet]) hstatus rfl
    · rw [if_neg hserves]
      exact h.exchange (by simp [Frame.quiet]) id rfl rfl rfl (by simp) .nil
  | timeout => exact h.end (by simp [Frame.quiet]) c.timeout_status rfl
  | removeConn => exact unlinked_removeConn h
  | closeChannel => exact unlinked_closeChannel h
  | deliver ev k => exact unlinked_deliver h
  | workerGone =>
    exact h.exchange (by simp [Frame.quiet]) id rfl rfl rfl (by simp [worker]) .nil
  | release =>
    simp only [worker, Conn.release]
    split
    · split <;>
        exact h.exchange (by simp [Frame.quiet]) (fun h => by cases h) rfl rfl rfl (by simp) .nil
    · exact h.exchange (by simp [Frame.quiet]) id rfl rfl rfl (by simp) .nil

/-! ### Calls of outside code -/

theorem call_sub (a : Api) (c : Conn)
    (hsubscribe : ∀ topic address cell, a ≠ .subscribe topic address cell)
    (hunsubscribe : ∀ topic, a ≠ .unsubscribe topic) :
    ((worker ι).call a c).1.sub = c.sub ∨ ((worker ι).call a c).1.sub = none := by
  cases a with
  | close => exact .inl c.close_sub
  | flush => exact .inl c.flush_sub
  | fireWrite buf => exact .inl (c.fireWrite_sub buf)
  | setKeepAlive ka => exact .inl (c.setKeepAlive_sub ka)
  | peerAddress => exact .inl c.peerAddress_sub
  | fire ev i =>
    simp only [worker]
    split
    · exact .inl rfl
    · exact c.fireNext_sub ev _
  | subscribe topic address cell => exact absurd rfl (hsubscribe topic address cell)
  | unsubscribe topic => exact absurd rfl (hunsubscribe topic)
  | freeSubscriber => exact .inr rfl

theorem unlinked_call {a : Api} {c : Conn} {fs : List Frame} (hd : unlinks.call a c fs)
    (h : Unlinked c fs) :
    Unlinked ((worker ι).call a c).1 (ownFrames ((worker ι).call a c).2 ++ fs) := by
  have hstatus : ((worker ι).call a c).1.status = _ := call_status a c
  have hstage : ((worker ι).call a c).1.stage = c.stage := congrArg Status.stage hstatus
  have hhandlers : ((worker ι).call a c).1.handlers = c.handlers := congrArg Status.handlers hstatus
  have hcleared : ((worker ι).call a c).1.cleared = c.cleared := congrArg Status.cleared hstatus
  have hunborn : ((worker ι).call a c).1.stage = .unborn → ((worker ι).call a c).1.handlers = [] :=
    fun hu => hhandlers.trans (h.unborn (hstage.symm.trans hu))
  have hplain : ((worker ι).call a c).1.hasWebSocket = c.hasWebSocket := by
    rw [Conn.hasWebSocket, hhandlers]
    rfl
  have hquiet := call_quiet (ι := ι) a c
  have hharmless : ∀ g ∈ ownFrames ((worker ι).call a c).2, g.harmless := by
    rw [call_frames]
    split <;> simp [Frame.harmless]
  have hback : Leaving ((worker ι).call a c).1 (ownFrames ((worker ι).call a c).2 ++ fs) →
      Leaving c fs := leaving_append hcleared hhandlers hharmless
  have hsorted : (ownFrames ((worker ι).call a c).2 ++ fs).Pairwise
      fun f g => g.quiet → f.quiet := by
    rw [List.pairwise_append]
    refine ⟨?_, h.sorted, fun f hf _ _ _ => hquiet f hf⟩
    exact List.pairwise_of_forall_mem_list fun f hf _ _ _ => hquiet f hf
  by_cases hsubscribe : ∃ topic address cell, a = .subscribe topic address cell
  · obtain ⟨topic, address, cell, rfl⟩ := hsubscribe
    by_cases hws : c.hasWebSocket
    · refine ⟨hsorted, fun hnot => ?_, hunborn, fun hl => absurd (hback hl) (hd _ _ _ rfl hws)⟩
      rw [hplain, hws] at hnot
      cases hnot
    · have hsame : ((worker ι).call (.subscribe topic address cell) c).1 = c := by
        simp [worker, Conn.subscribe, hws]
      exact h.step hsorted hstage.symm.trans hhandlers (.inl (by rw [hsame]))
        fun hl => .inl (hback hl)
  · by_cases hunsubscribe : ∃ topic, a = .unsubscribe topic
    · obtain ⟨topic, rfl⟩ := hunsubscribe
      refine ⟨hsorted, fun hnot => ?_, hunborn, fun hl => ?_⟩
      · rw [hplain] at hnot
        simp [worker, Conn.unsubscribe, h.plain hnot]
      · have hnil := h.leaving (hback hl)
        revert hnil
        simp only [Conn.topics, worker, Conn.unsubscribe]
        cases c.sub with
        | none => exact id
        | some sub =>
          intro hnil
          have hnil' : sub.topics = [] := hnil
          simp [hnil']
    · refine h.step hsorted hstage.symm.trans hhandlers (call_sub a c ?_ ?_)
        fun hl => .inl (hback hl)
      · exact fun topic address cell heq => hsubscribe ⟨topic, address, cell, heq⟩
      · exact fun topic heq => hunsubscribe ⟨topic, heq⟩

theorem unlinked_inductive : (worker ι).Inductive (withCut unlinks) Unlinked where
  start := by
    intro e objects i h
    have hcore : ∀ f ∈ framesOf i ((worker ι).start e objects), f.harmless ∧ ¬ f.quiet := by
      intro f hf
      rcases framesOf_start e objects i with hwaiting | ⟨hframes, -⟩
      · have hwait := hwaiting f hf
        cases f <;> simp_all [Frame.waiting, Frame.harmless, Frame.quiet]
      · rw [hframes] at hf
        obtain rfl := List.mem_singleton.mp hf
        simp [Frame.harmless, Frame.quiet]
    refine h.step ?_ id rfl (.inl rfl) fun hl => .inl ?_
    · exact List.pairwise_of_forall_mem_list fun _ _ g hg hquiet => absurd hquiet (hcore g hg).2
    · rw [← List.append_nil (framesOf i _)] at hl
      exact leaving_append rfl rfl (fun g hg => (hcore g hg).1) hl
  go := fun _ _ _ hd h => unlinked_go hd h
  call := fun _ _ _ hd h => unlinked_call hd h
  drop := by
    rintro c fs fs' - ⟨-, rfl | ⟨rfl, -⟩⟩ h
    · exact h
    · refine h.step .nil id rfl (.inl rfl) fun hl => .inl ?_
      rcases hl with hl | hl | ⟨k, hl⟩ | ⟨hl, -⟩
      · exact .inl hl
      all_goals cases hl

end XNetty.Event
