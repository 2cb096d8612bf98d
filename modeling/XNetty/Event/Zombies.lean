import XNetty.Event.Descriptors

/-!
# Zombies

A connection that is closed has to leave `connections_` before the event ends, for every later
event returns early on it. Only the functions that end in `removeConn` see to that: `onRead`,
`onError` and `onTimerTick`. Whoever else closes a connection has to do it while one of these
still has its removal to come.

## Main definitions

* `RemovalPending` — a frame of the connection still tests `closed_` or removes it.
* `noZombies` — the discipline under which no closed connection is left behind.
-/

namespace XNetty.Event

open Reentrant

/-- Frames that end in the removal of the connection once it is closed. -/
def Frame.removes : Frame → Bool
  | .checkClosed | .timeout | .removeConn | .closeChannel => true
  | _ => false

/-- Frames of `setupConnection` after its first. -/
def Frame.settingUp : Frame → Bool
  | .activate | .add => true
  | _ => false

def RemovalPending (fs : List Frame) : Prop := ∃ f ∈ fs, f.removes

@[simp] theorem removalPending_nil : RemovalPending [] ↔ False := by simp [RemovalPending]

@[simp] theorem removalPending_cons (f : Frame) (fs : List Frame) :
    RemovalPending (f :: fs) ↔ f.removes ∨ RemovalPending fs := by
  simp [RemovalPending]

/-- Where a step closes an open connection of a running worker, the removal of the connection is
still to come, and no exception cuts it off. -/
def noZombies : Discipline Conn Frame Api where
  go f c fs := f = .onWrite → c.writeFails → RemovalPending fs
  call a c fs := c.loopAlive → c.closed = false → a.closes c → RemovalPending fs
  drop c _ fs' := c.listed → c.closed → RemovalPending fs'

/-! ### Frames other than loops -/

/-- The frames that are not loops over handlers. -/
def core (fs : List Frame) : List Frame := fs.filter fun f => !f.quiet

@[simp] theorem core_nil : core [] = [] := rfl

@[simp] theorem core_append (fs fs' : List Frame) : core (fs ++ fs') = core fs ++ core fs' :=
  List.filter_append ..

theorem core_of_quiet {fs : List Frame} (h : ∀ f ∈ fs, f.quiet) : core fs = [] := by
  simpa [core] using h

theorem removalPending_core {fs : List Frame} : RemovalPending (core fs) ↔ RemovalPending fs := by
  constructor
  · rintro ⟨f, hf, hremoves⟩
    exact ⟨f, (List.mem_filter.mp hf).1, hremoves⟩
  · rintro ⟨f, hf, hremoves⟩
    refine ⟨f, List.mem_filter.mpr ⟨hf, ?_⟩, hremoves⟩
    cases f <;> first | rfl | cases hremoves

/-! ### The invariant -/

/-- The channel has been taken off the poller and its descriptor closed. -/
def Conn.Gone (c : Conn) : Prop :=
  c.fd = none ∧ ∃ n, .sys .pollerDel (some n) ∈ c.log ∧ .sys .close (some n) ∈ c.log

/-- The connection has not been set up, and `setupConnection` begins alone. -/
structure Unborn (c : Conn) (fs : List Frame) : Prop where
  stage : c.stage = .unborn
  isOpen : c.closed = false
  out : c.listed = false
  frames : ∀ f ∈ fs, f.settingUp = false ∧ f.removes = false
  alone : ∀ fd handlers waterMark, .setup fd handlers waterMark ∈ fs → fs.length = 1

/-- The connection is being set up, and nothing else is. -/
structure SettingUp (c : Conn) (fs : List Frame) : Prop where
  stage : c.stage = .alive
  isOpen : c.closed = false
  out : c.listed = false
  fd : c.fd ≠ none
  frames : fs = [.activate] ∨ fs = [.add]

/-- The connection is in `connections_`, where its removal is pending if it is closed, or gone. -/
structure Settled (c : Conn) (fs : List Frame) : Prop where
  stage : c.stage ≠ .unborn
  frames : ∀ f ∈ fs, f.settingUp = false
  place : c.listed = true ∧ c.stage = .alive ∧ c.fd ≠ none ∧ (c.closed → RemovalPending fs) ∨
    c.listed = false ∧ c.Gone

def Kept (c : Conn) (fs : List Frame) : Prop := Unborn c fs ∨ SettingUp c fs ∨ Settled c fs

theorem kept_new (socket : Socket) : Kept { socket := socket } [] :=
  .inl ⟨rfl, rfl, rfl, by simp, by simp⟩

/-- A frame that is neither of `setupConnection` nor of a removal goes. -/
theorem Kept.tail {c : Conn} {f : Frame} {fs : List Frame} (h : Kept c (f :: fs))
    (hset : f.settingUp = false) (hremoves : f.removes = false) :
    Unborn c fs ∧ (∀ fd handlers waterMark, f = .setup fd handlers waterMark → fs = []) ∨
      Settled c fs := by
  rcases h with h | h | h
  · refine .inl ⟨⟨h.stage, h.isOpen, h.out, fun g hg => h.frames g (by simp [hg]), ?_⟩, ?_⟩
    · intro fd handlers waterMark hmem
      have hlength := h.alone fd handlers waterMark (by simp [hmem])
      obtain rfl : fs = [] := by simpa using hlength
      cases hmem
    · rintro fd handlers waterMark rfl
      simpa using h.alone fd handlers waterMark (by simp)
  · rcases h.frames with heq | heq <;> cases heq <;> cases hset
  · refine .inr ⟨h.stage, fun g hg => h.frames g (by simp [hg]), ?_⟩
    simpa [hremoves] using h.place

/-- Nothing but `closed_` changes, and if it is set the removal is pending. -/
theorem Kept.close {c c' : Conn} {fs : List Frame} (h : Kept c fs) {b cleared : Bool}
    (hstatus : c'.status = { c.status with closed := c.closed || b, cleared })
    (hlog : c.log ⊆ c'.log)
    (halive : b → c.stage = .alive) (hpending : b → c.closed = false → RemovalPending fs) :
    Kept c' fs := by
  have hstage : c'.stage = c.stage := congrArg Status.stage hstatus
  have hfd : c'.fd = c.fd := congrArg Status.fd hstatus
  have hlisted : c'.listed = c.listed := congrArg Status.listed hstatus
  have hclosed : c'.closed = (c.closed || b) := congrArg Status.closed hstatus
  rcases h with h | h | h
  · have hb : b = false := by
      by_contra hb
      have := (halive (by simpa using hb)).symm.trans h.stage
      cases this
    exact .inl ⟨hstage.trans h.stage, by simp [hclosed, hb, h.isOpen], hlisted.trans h.out,
      h.frames, h.alone⟩
  · have hb : b = false := by
      by_contra hb
      have := hpending (by simpa using hb) h.isOpen
      rcases h.frames with rfl | rfl <;> simp [Frame.removes] at this
    exact .inr (.inl ⟨hstage.trans h.stage, by simp [hclosed, hb, h.isOpen],
      hlisted.trans h.out, by rw [hfd]; exact h.fd, h.frames⟩)
  · refine .inr (.inr ⟨by rw [hstage]; exact h.stage, h.frames, ?_⟩)
    rcases h.place with ⟨hin, hstage', hfd', hpend⟩ | ⟨hout, hnone, n, hdel, hcl⟩
    · refine .inl ⟨hlisted.trans hin, hstage.trans hstage', by rwa [hfd], fun hc => ?_⟩
      cases hcl : c.closed with
      | true => exact hpend hcl
      | false =>
        rw [hclosed, hcl, Bool.false_or] at hc
        exact hpending hc hcl
    · exact .inr ⟨hlisted.trans hout, hfd.trans hnone, n, hlog hdel, hlog hcl⟩

theorem Kept.of_status {c c' : Conn} {fs : List Frame} (h : Kept c fs) {cleared : Bool}
    (hstatus : c'.status = { c.status with cleared }) (hlog : c.log ⊆ c'.log) : Kept c' fs :=
  h.close (b := false) (by rw [Bool.or_false]; exact hstatus) hlog (by simp) (by simp)

/-! ### What the worker does -/

theorem kept_setup {c : Conn} {fd : ℕ} {handlers : List HandlerEntry} {waterMark : ℕ}
    {fs : List Frame} (h : Kept c (.setup fd handlers waterMark :: core fs)) :
    Kept (c.setupConnection fd handlers waterMark).1
      (core (ownFrames (c.setupConnection fd handlers waterMark).2 ++ fs)) := by
  unfold Conn.setupConnection
  split
  · rename_i hunborn
    rcases h.tail rfl rfl with ⟨h, hnil⟩ | h
    · refine .inr (.inl ⟨rfl, h.isOpen, h.out, by simp [Conn.sys, Conn.note], .inl ?_⟩)
      change .activate :: core fs = _
      rw [hnil fd handlers waterMark rfl]
    · exact absurd hunborn h.stage
  · rename_i hborn
    rcases h.tail rfl rfl with ⟨h, -⟩ | h
    · exact absurd h.stage hborn
    · exact .inr (.inr h)

theorem kept_activate {c : Conn} {fs : List Frame} (h : Kept c (.activate :: core fs)) :
    Kept c (core ([.deliver .active 0, .add] ++ fs)) := by
  change Kept c (.add :: core fs)
  rcases h with h | h | h
  · simpa [Frame.settingUp] using (h.frames .activate (by simp)).1
  · refine .inr (.inl { h with frames := .inr ?_ })
    rcases h.frames with heq | heq
    · rw [(List.cons.inj heq).2]
    · cases heq
  · simpa [Frame.settingUp] using h.frames .activate (by simp)

theorem kept_add {c : Conn} {fs : List Frame} (h : Kept c (.add :: core fs)) :
    Kept { c with listed := true } (core fs) := by
  rcases h with h | h | h
  · simpa [Frame.settingUp] using (h.frames .add (by simp)).1
  · obtain heq | heq := h.frames
    · cases heq
    · rw [(List.cons.inj heq).2]
      refine .inr (.inr ⟨by simp [h.stage], by simp, .inl ⟨rfl, h.stage, h.fd, fun hc => ?_⟩⟩)
      rw [h.isOpen] at hc
      cases hc
  · simpa [Frame.settingUp] using h.frames .add (by simp)

/-- A frame gives way to one that will test `closed_` or remove the connection. -/
theorem Settled.replace {c c' : Conn} {f : Frame} {fs : List Frame} (h : Settled c (f :: fs))
    (g : Frame) (hset : g.settingUp = false) (hremoves : g.removes) {closed : Bool}
    (hstatus : c'.status = { c.status with closed := closed }) (hlog : c.log ⊆ c'.log) :
    Settled c' (g :: fs) := by
  have hstage : c'.stage = c.stage := congrArg Status.stage hstatus
  have hfd : c'.fd = c.fd := congrArg Status.fd hstatus
  have hlisted : c'.listed = c.listed := congrArg Status.listed hstatus
  refine ⟨by rw [hstage]; exact h.stage, ?_, ?_⟩
  · intro k hk
    rcases List.mem_cons.mp hk with rfl | hk
    · exact hset
    · exact h.frames k (by simp [hk])
  · rcases h.place with ⟨hin, hstage', hfd', -⟩ | ⟨hout, hnone, n, hdel, hcl⟩
    · exact .inl ⟨hlisted.trans hin, hstage.trans hstage', by rwa [hfd],
        fun _ => by simp [hremoves]⟩
    · exact .inr ⟨hlisted.trans hout, hfd.trans hnone, n, hlog hdel, hlog hcl⟩

theorem Settled.tail {c : Conn} {f : Frame} {fs : List Frame} (h : Settled c (f :: fs))
    (hpending : c.listed → c.closed → RemovalPending fs) : Settled c fs where
  stage := h.stage
  frames := fun g hg => h.frames g (by simp [hg])
  place := by
    rcases h.place with ⟨hin, hstage, hfd, -⟩ | hgone
    · exact .inl ⟨hin, hstage, hfd, hpending hin⟩
    · exact .inr hgone

/-- A connection that is served is settled, but for the frames of `setupConnection`. -/
theorem Kept.settled {c : Conn} {f : Frame} {fs : List Frame} (h : Kept c (f :: fs))
    (hset : f.settingUp = false) (hserves : c.serves) : Settled c (f :: fs) := by
  rcases h with h | h | h
  · have halive := (c.serves_iff.mp hserves).2.1
    rw [h.stage] at halive
    cases halive
  · rcases h.frames with heq | heq <;> cases heq <;> cases hset
  · exact h

/-- A connection with a removal under way is settled. -/
theorem Kept.removing {c : Conn} {f : Frame} {fs : List Frame} (h : Kept c (f :: fs))
    (hremoves : f.removes) : Settled c (f :: fs) := by
  rcases h with h | h | h
  · have hnot := (h.frames f (by simp)).2
    rw [hremoves] at hnot
    cases hnot
  · rcases h.frames with heq | heq <;> cases heq <;> cases hremoves
  · exact h

theorem Kept.pop {c : Conn} {f : Frame} {fs : List Frame} (h : Kept c (f :: fs))
    (hset : f.settingUp = false) (hremoves : f.removes = false) : Kept c fs := by
  rcases h.tail hset hremoves with ⟨h, -⟩ | h
  · exact .inl h
  · exact .inr (.inr h)

theorem kept_onRead {c : Conn} {n : ReadResult} {fs : List Frame}
    (h : Kept c (.onRead n :: core fs)) :
    Kept (c.onRead n).1 (core (ownFrames (c.onRead n).2 ++ fs)) := by
  have hlog := (c.onRead_logs n).subset
  have hstatus := c.onRead_status n
  unfold Conn.onRead at *
  by_cases hserves : c.serves
  · have hsettled := h.settled rfl hserves
    simp only [hserves, if_true] at hlog hstatus ⊢
    cases n with
    | again => exact (h.pop rfl rfl).of_status rfl hlog
    | data =>
      rw [ownFrames_append, Conn.fireNext_frames]
      exact .inr (.inr (hsettled.replace .checkClosed rfl rfl hstatus hlog))
    | _ => exact .inr (.inr (hsettled.replace .removeConn rfl rfl hstatus hlog))
  · rw [if_neg hserves]
    exact h.pop rfl rfl

theorem kept_onError {c : Conn} {fs : List Frame} (h : Kept c (.onError :: core fs)) :
    Kept c.onError.1 (core (ownFrames c.onError.2 ++ fs)) := by
  have hstatus := c.onError_status
  have hlog := c.onError_calls.logs.subset
  unfold Conn.onError at *
  by_cases hserves : c.serves
  · rw [if_pos hserves] at *
    exact .inr (.inr ((h.settled rfl hserves).replace .removeConn rfl rfl hstatus hlog))
  · rw [if_neg hserves]
    exact h.pop rfl rfl

theorem kept_checkClosed {c : Conn} {fs : List Frame} (h : Kept c (.checkClosed :: core fs)) :
    Kept c (core (ownFrames (if c.closed then [.frame .removeConn] else []) ++ fs)) := by
  have hsettled := h.removing rfl
  cases hclosed : c.closed with
  | true =>
    have hstatus : c.status = { c.status with closed := c.closed } := rfl
    exact .inr (.inr (hsettled.replace .removeConn rfl rfl hstatus (List.Subset.refl _)))
  | false => exact .inr (.inr (hsettled.tail fun _ hc => by simp [hclosed] at hc))

theorem kept_timeout {c : Conn} {fs : List Frame} (h : Kept c (.timeout :: core fs)) :
    Kept c.timeout.1 (core (ownFrames c.timeout.2 ++ fs)) :=
  .inr (.inr ((h.removing rfl).replace .removeConn rfl rfl c.timeout_status (List.Subset.refl _)))

theorem kept_removeConn {c : Conn} {fs : List Frame} (h : Kept c (.removeConn :: core fs)) :
    Kept c.removeConn.1 (core (ownFrames c.removeConn.2 ++ fs)) := by
  have hsettled := h.removing rfl
  unfold Conn.removeConn
  cases hlisted : c.listed with
  | true =>
    have hstatus : c.status = { c.status with closed := c.closed } := rfl
    exact .inr (.inr (hsettled.replace .closeChannel rfl rfl hstatus (List.Subset.refl _)))
  | false => exact .inr (.inr (hsettled.tail fun hin _ => by simp [hlisted] at hin))

theorem kept_closeChannel {c : Conn} {fs : List Frame} (h : Kept c (.closeChannel :: core fs)) :
    Kept c.closeChannel.1 (core (ownFrames c.closeChannel.2 ++ fs)) := by
  have hsettled := h.removing rfl
  have hframes := fun g (hg : g ∈ core fs) => hsettled.frames g (by simp [hg])
  refine .inr (.inr ⟨?_, hframes, .inr ?_⟩)
  · unfold Conn.closeChannel
    cases c.fd <;> exact hsettled.stage
  · unfold Conn.closeChannel
    rcases hsettled.place with ⟨-, -, hfd, -⟩ | ⟨-, hgone⟩
    · obtain ⟨n, hn⟩ := Option.ne_none_iff_exists'.mp hfd
      refine ⟨rfl, by simp [hn], n, ?_, ?_⟩ <;> simp [hn, Conn.sys, Conn.note]
    · simpa [hgone.1, Conn.Gone] using hgone.2

theorem kept_release {c : Conn} {fs : List Frame} (h : Kept c (.release :: core fs)) :
    Kept c.release (core fs) := by
  unfold Conn.release
  split
  · rename_i hreleased
    rcases h.tail rfl rfl with ⟨h, -⟩ | h
    · rw [h.stage] at hreleased
      cases hreleased.1
    · obtain ⟨hin, -⟩ | ⟨hout, hgone⟩ := h.place
      · exact absurd hin hreleased.2
      · rw [if_neg (by simp [hgone.1])]
        exact .inr (.inr ⟨nofun, h.frames, .inr ⟨hout, hgone⟩⟩)
  · exact h.pop rfl rfl

theorem kept_deliver {c : Conn} {ev : LifeEvent} {i : ℕ} {fs : List Frame} (h : Kept c (core fs)) :
    Kept (c.deliver ev i).1 (core (ownFrames (c.deliver ev i).2 ++ fs)) := by
  have hitems : core (ownFrames (c.deliver ev i).2) = [] := by
    unfold Conn.deliver
    split
    · rfl
    · split <;> rfl
  rw [core_append, hitems, List.nil_append]
  exact h.of_status (c.deliver_status ev i) (c.deliver_logs ev i).subset

theorem loopAlive_of_status {c c' : Conn} {closed cleared : Bool}
    (h : c'.status = { c.status with closed, cleared }) : c'.loopAlive = c.loopAlive :=
  congrArg Status.loopAlive h

variable {ι : Type*} [DecidableEq ι]

/-- No frame brings the worker back. -/
theorem go_loopAlive (f : Frame) (c : Conn) :
    ((worker ι).go f c).1.loopAlive → c.loopAlive := by
  intro h
  cases f with
  | setup fd handlers waterMark =>
    revert h
    simp only [worker, Conn.setupConnection]
    split <;> exact id
  | onRead n => rwa [← loopAlive_of_status (c.onRead_status n)]
  | onWrite => rwa [← loopAlive_of_status c.onWrite_status]
  | onError => rwa [← loopAlive_of_status c.onError_status]
  | removeConn => rwa [← loopAlive_of_status c.removeConn_status]
  | closeChannel =>
    revert h
    simp only [worker, Conn.closeChannel]
    split <;> exact id
  | deliver ev i => rwa [← loopAlive_of_status (c.deliver_status ev i)]
  | workerGone => cases h
  | release =>
    revert h
    simp only [worker, Conn.release]
    split
    · split <;> exact id
    · exact id
  | _ => exact h

theorem kept_go {f : Frame} {c : Conn} {fs : List Frame} (hd : noZombies.go f c fs)
    (hloop : ((worker ι).go f c).1.loopAlive) (h : Kept c (core (f :: fs))) :
    Kept ((worker ι).go f c).1 (core (ownFrames ((worker ι).go f c).2 ++ fs)) := by
  cases f with
  | setup fd handlers waterMark => exact kept_setup h
  | activate => exact kept_activate h
  | add => exact kept_add h
  | onRead n => exact kept_onRead h
  | checkClosed => exact kept_checkClosed h
  | onWrite =>
    have hpop : Kept c (core fs) := Kept.pop h rfl rfl
    refine hpop.close c.onWrite_status c.onWrite_calls.logs.subset ?_ fun hfails _ => ?_
    · intro hfails
      simp only [Conn.writeFails, Bool.and_eq_true] at hfails
      exact (c.serves_iff.mp hfails.1).2.1
    · exact removalPending_core.mpr (hd rfl hfails)
  | onError => exact kept_onError h
  | timeout => exact kept_timeout h
  | removeConn => exact kept_removeConn h
  | closeChannel => exact kept_closeChannel h
  | deliver ev i => exact kept_deliver h
  | workerGone => cases hloop
  | release => exact kept_release h

theorem Api.alive_of_closes {a : Api} {c : Conn} (h : a.closes c) : c.stage = .alive := by
  cases a with
  | close => simpa [closes] using h
  | flush =>
    simp only [closes, Conn.flushCloses, Bool.and_eq_true, decide_eq_true_eq] at h
    exact h.1.1
  | fireWrite buf =>
    simp only [closes, Conn.writeCloses, Bool.and_eq_true, decide_eq_true_eq] at h
    exact h.1
  | _ => cases h

theorem kept_call {a : Api} {c : Conn} {fs : List Frame} (hd : noZombies.call a c fs)
    (hloop : c.loopAlive) (h : Kept c (core fs)) :
    Kept ((worker ι).call a c).1 (core (ownFrames ((worker ι).call a c).2 ++ fs)) := by
  rw [core_append, core_of_quiet (call_quiet a c), List.nil_append]
  exact h.close (call_status a c) (call_logs a c).subset Api.alive_of_closes
    fun hcloses hopen => removalPending_core.mpr (hd hloop hopen hcloses)

theorem mem_start_poll {c i : ι} {read : Option ReadResult} {write error : Bool}
    {objects : ι → Conn} {f : Frame}
    (h : .frame i f ∈ (worker ι).start (.poll c read write error) objects) :
    (∃ n, f = .onRead n) ∨ f = .onWrite ∨ f = .onError := by
  rcases List.mem_append.mp h with h | h
  · rcases List.mem_append.mp h with h | h
    · obtain ⟨n, -, heq⟩ := by simpa using h
      exact .inl ⟨n, heq.2.symm⟩
    · split at h <;> simp_all
  · split at h <;> simp_all

/-- What events start. -/
theorem mem_start {e : WorkerEvent ι} {objects : ι → Conn} {i : ι} {f : Frame}
    (h : .frame i f ∈ (worker ι).start e objects) :
    f.settingUp = false ∧ (f.removes → (objects i).listed ∧ (objects i).closed = false) ∧
      ∀ fd handlers waterMark, f = .setup fd handlers waterMark →
        (worker ι).start e objects = [.frame i f] := by
  cases e with
  | accept c fd handlers waterMark =>
    obtain ⟨rfl, rfl⟩ : i = c ∧ f = .setup fd handlers waterMark := by simpa [worker] using h
    exact ⟨rfl, by simp [Frame.removes], fun _ _ _ _ => rfl⟩
  | poll c read write error =>
    rcases mem_start_poll h with ⟨n, rfl⟩ | rfl | rfl <;>
      exact ⟨rfl, by simp [Frame.removes], by simp⟩
  | tick timedOut =>
    obtain ⟨c, hc, heq⟩ := List.mem_map.mp h
    obtain ⟨rfl, rfl⟩ := Slot.frame.inj heq
    exact ⟨rfl, fun _ => by simpa using (List.mem_filter.mp hc).2, by simp⟩
  | callback => simp [worker] at h
  | workerGone c =>
    obtain ⟨rfl, rfl⟩ : i = c ∧ f = .workerGone := by simpa [worker] using h
    exact ⟨rfl, by simp [Frame.removes], by simp⟩
  | release c =>
    obtain ⟨rfl, rfl⟩ : i = c ∧ f = .release := by simpa [worker] using h
    exact ⟨rfl, by simp [Frame.removes], by simp⟩

theorem kept_start {e : WorkerEvent ι} {objects : ι → Conn} {i : ι} (h : Kept (objects i) []) :
    Kept (objects i) (core (framesOf i ((worker ι).start e objects))) := by
  have hmem : ∀ f ∈ core (framesOf i ((worker ι).start e objects)),
      .frame i f ∈ (worker ι).start e objects :=
    fun f hf => mem_framesOf.mp (List.mem_filter.mp hf).1
  rcases h with h | h | h
  · refine .inl ⟨h.stage, h.isOpen, h.out, fun f hf => ⟨(mem_start (hmem f hf)).1, ?_⟩, ?_⟩
    · by_contra hremoves
      have hlisted := ((mem_start (hmem f hf)).2.1 (by simpa using hremoves)).1
      rw [h.out] at hlisted
      cases hlisted
    · intro fd handlers waterMark hf
      rw [(mem_start (hmem _ hf)).2.2 fd handlers waterMark rfl, framesOf_frame_self]
      rfl
  · rcases h.frames with heq | heq <;> cases heq
  · refine .inr (.inr ⟨h.stage, fun f hf => (mem_start (hmem f hf)).1, ?_⟩)
    rcases h.place with ⟨hin, hstage, hfd, hpending⟩ | hgone
    · exact .inl ⟨hin, hstage, hfd, fun hclosed => absurd (hpending hclosed) (by simp)⟩
    · exact .inr hgone

theorem kept_drop {c : Conn} {fs fs' : List Frame} (hcut : Cut fs fs')
    (hd : noZombies.drop c fs fs') (h : Kept c (core fs)) : Kept c (core fs') := by
  rcases hcut with rfl | ⟨rfl, hcut⟩
  · exact h
  · have hcutOff : ∀ f ∈ core fs, f.cutOff := fun f hf => hcut f (List.mem_filter.mp hf).1
    rcases h with h | h | h
    · exact .inl ⟨h.stage, h.isOpen, h.out, by simp, by simp⟩
    · rcases h.frames with heq | heq <;> rw [heq] at hcutOff <;> simp [Frame.cutOff] at hcutOff
    · refine .inr (.inr ⟨h.stage, by simp, ?_⟩)
      rcases h.place with ⟨hin, hstage, hfd, -⟩ | hgone
      · exact .inl ⟨hin, hstage, hfd, hd hin⟩
      · exact .inr hgone

theorem kept_inductive : (worker ι).Inductive (withCut noZombies)
    fun c fs => c.loopAlive → Kept c (core fs) where
  start := fun _ _ _ h hloop => kept_start (h hloop)
  go := fun f c _ hd h hloop => kept_go hd hloop (h (go_loopAlive f c hloop))
  call := fun a c _ hd h hloop => by
    have hstatus : ((worker ι).call a c).1.status = _ := call_status a c
    rw [loopAlive_of_status hstatus] at hloop
    exact kept_call hd hloop (h hloop)
  drop := fun _ _ _ _ hd h hloop => kept_drop hd.2 hd.1 (h hloop)

/-- **No zombies.** In a run that keeps the discipline, between two events no connection of the
worker is both closed and in `connections_`; a closed one is off the poller, with its descriptor
closed. -/
theorem run_noZombies (sockets : ι → Socket) (choices : List (Choice ι Api (WorkerEvent ι)))
    (hkeeps : Ledger.Along (Machine.step (worker ι)) noZombies.Keeps (newWorker sockets) choices)
    (hidle : ((newWorker sockets).run (worker ι) choices).stack = []) (i : ι) :
    let c := ((newWorker sockets).run (worker ι) choices).objects i
    c.loopAlive → c.closed → c.listed = false ∧ c.Gone := by
  intro c hloop hclosed
  have hkept := run_satisfies kept_inductive sockets (fun socket _ => kept_new socket) hkeeps i
    hloop
  rw [hidle] at hkept
  rcases hkept with h | h | h
  · rw [h.isOpen] at hclosed
    cases hclosed
  · rcases h.frames with heq | heq <;> cases heq
  · rcases h.place with ⟨-, -, -, hpending⟩ | hgone
    · exact absurd (hpending hclosed) (by simp)
    · exact hgone

/-- A connection is accepted, and then the other side closes it. -/
theorem run_noZombies_eof :
    let m := (newWorker fun _ : Unit => ⟨fun _ => .again, []⟩).run (worker Unit)
      [.start (.accept () 5 [] 0), .go, .go, .go, .go, .go,
        .start (.poll () (some .eof) false false), .go, .go, .go, .go, .go, .go]
    m.stack = [] ∧ (m.objects ()).closed ∧ (m.objects ()).listed = false ∧ (m.objects ()).Gone :=
  ⟨rfl, rfl, run_noZombies _ _ (by
    refine ⟨trivial, nofun, nofun, nofun, nofun, nofun, trivial, nofun, nofun, nofun, nofun, nofun,
      nofun, trivial⟩) rfl () rfl rfl⟩

/-- The callback that waits for a pong closes a connection, which stays. -/
theorem not_noZombies_callback :
    let m := (newWorker fun _ : Unit => ⟨fun _ => .again, []⟩).run (worker Unit)
      [.start (.accept () 5 [] 0), .go, .go, .go, .go, .go,
        .start .callback, .call () .close, .go, .ret]
    m.stack = [] ∧ (m.objects ()).loopAlive ∧ (m.objects ()).listed ∧ (m.objects ()).closed :=
  ⟨rfl, rfl, rfl, rfl⟩

end XNetty.Event
