import XNetty.Event.Lifecycle.Calls

/-!
# Lifecycles and the worker's functions

Every function of the worker keeps what handlers have seen and are owed a lifecycle.
-/

namespace XNetty.Event

open Reentrant

variable {ι : Type*} [DecidableEq ι]

/-! ### The worker's functions -/

/-- A frame with a part in the lifecycle gives way to others, with nothing seen and the same
owed. -/
theorem Tracked.exchange {c c' : Conn} {f : Frame} {fs gs : List Frame}
    (h : Tracked c (f :: fs)) (hf : f.owing) (hstage : c'.stage = c.stage)
    (hhandlers : c'.handlers = c.handlers) (hseen : ∀ i, c'.seen i = c.seen i)
    (hgs : ∀ g ∈ gs, ¬ g.waiting)
    (hphase : ∀ s, Phase c.listed c.closed c.cleared (f :: s) →
      Phase c'.listed c'.closed c'.cleared (owing gs ++ s) ∧
      (∀ i, owes c'.closed i (owing gs ++ s) = owes c.closed i (f :: s)) ∧
      (c'.closed || decide (.timeout ∈ owing gs ++ s)) = (c.closed || decide (.timeout ∈ f :: s))) :
    Tracked c' (gs ++ fs) := by
  refine h.replace hf hstage hhandlers hgs fun hliving => ?_
  obtain ⟨hphase', howes, hended⟩ := hphase _ hliving.phase
  refine ⟨hphase', fun i entry hget hinbound => ?_⟩
  rw [hhandlers] at hget
  rw [howes, hseen, hended]
  exact hliving.order i entry hget hinbound

theorem tracked_activate {c : Conn} {fs : List Frame} (h : Tracked c (.activate :: fs)) :
    Tracked c ([.deliver .active 0, .add] ++ fs) := by
  refine h.exchange rfl rfl rfl (fun _ => rfl) (by simp [Frame.waiting]) fun s hphase => ?_
  generalize c.listed = listed, c.closed = closed, c.cleared = cleared at hphase
  cases hphase
  exact ⟨.activating 0, fun _ => rfl, rfl⟩

theorem tracked_add {c : Conn} {fs : List Frame} (h : Tracked c (.add :: fs)) :
    Tracked { c with listed := true } ([] ++ fs) := by
  refine h.exchange rfl rfl rfl (fun _ => rfl) (by simp) fun s hphase => ?_
  dsimp only
  generalize c.listed = listed, c.closed = closed, c.cleared = cleared at hphase
  cases hphase
  exact ⟨.isOpen, fun _ => rfl, rfl⟩

theorem tracked_checkClosed {c : Conn} {fs : List Frame} (h : Tracked c (.checkClosed :: fs)) :
    Tracked c (ownFrames (if c.closed then [.frame .removeConn] else []) ++ fs) := by
  refine h.exchange rfl rfl rfl (fun _ => rfl) ?_ fun s hphase => ?_
  · split <;> simp [Frame.waiting]
  · generalize c.listed = listed, c.closed = closed, c.cleared = cleared at hphase
    cases hphase
    cases closed with
    | true => exact ⟨.ended, fun _ => rfl, rfl⟩
    | false => exact ⟨.isOpen, fun _ => rfl, rfl⟩

theorem tracked_timeout {c : Conn} {fs : List Frame} (h : Tracked c (.timeout :: fs)) :
    Tracked c.timeout.1 (ownFrames c.timeout.2 ++ fs) := by
  refine h.exchange rfl rfl rfl (fun _ => rfl) (by simp [Conn.timeout, Frame.waiting])
    fun s hphase => ?_
  simp only [Conn.timeout]
  generalize c.listed = listed, c.closed = closed, c.cleared = cleared at hphase
  cases hphase
  exact ⟨.ending 0, fun _ => rfl, by simp⟩

theorem tracked_removeConn {c : Conn} {fs : List Frame} (h : Tracked c (.removeConn :: fs)) :
    Tracked c.removeConn.1 (ownFrames c.removeConn.2 ++ fs) := by
  have hstatus := c.removeConn_status
  refine h.exchange rfl (congrArg Status.stage hstatus) (congrArg Status.handlers hstatus)
    c.removeConn_calls.seen ?_ fun s hphase => ?_
  · unfold Conn.removeConn
    split <;> simp [Frame.waiting]
  · have halike := Alike.of_status hstatus
    rw [halike.listed, halike.closed, halike.cleared]
    unfold Conn.removeConn
    generalize c.listed = listed, c.closed = closed, c.cleared = cleared at hphase
    cases hphase
    exact ⟨.leaving 0, fun _ => rfl, rfl⟩

theorem closeChannel_seen (c : Conn) (i : ℕ) : c.closeChannel.1.seen i = c.seen i := by
  unfold Conn.closeChannel
  cases c.fd with
  | none => rfl
  | some n => exact Conn.seen_of_log rfl i

theorem tracked_closeChannel {c : Conn} {fs : List Frame} (h : Tracked c (.closeChannel :: fs)) :
    Tracked c.closeChannel.1 (ownFrames c.closeChannel.2 ++ fs) := by
  have hsame : c.closeChannel.1.stage = c.stage ∧ c.closeChannel.1.handlers = c.handlers ∧
      c.closeChannel.1.closed = c.closed ∧ c.closeChannel.1.cleared = c.cleared := by
    unfold Conn.closeChannel
    cases c.fd <;> exact ⟨rfl, rfl, rfl, rfl⟩
  obtain ⟨hstage, hhandlers, hclosed, hcleared⟩ := hsame
  refine h.exchange rfl hstage hhandlers (closeChannel_seen c)
    (by simp [Conn.closeChannel, Frame.waiting]) fun s hphase => ?_
  rw [hclosed, hcleared]
  change Phase false c.closed c.cleared (.deliver .removed 0 :: s) ∧ _
  generalize c.listed = listed, c.closed = closed, c.cleared = cleared at hphase
  cases hphase
  exact ⟨.removing 0, fun _ => rfl, rfl⟩

/-- What is known of a connection that is served. -/
theorem Tracked.served {c : Conn} {f : Frame} {fs : List Frame} (h : Tracked c (f :: fs))
    (hf : f.waiting) (hserves : c.serves) :
    c.stage = .alive ∧ c.closed = false ∧ (c.hasInbound → c.listed = true ∧ c.cleared = false ∧
      ∀ i h, c.handlers[i]? = some h → h.inbound → ∃ reads, c.seen i = course reads false) := by
  obtain ⟨-, halive, hopen⟩ := c.serves_iff.mp hserves
  refine ⟨halive, hopen, fun hin => ?_⟩
  obtain ⟨htail, hnil⟩ := h.waiting hf
  have hliving := htail.living halive hopen hin
  rw [hnil] at hliving
  have hphase := hliving.phase
  have horder := hliving.order
  rw [hopen] at hphase horder
  generalize c.listed = listed, c.cleared = cleared at hphase ⊢
  cases hphase
  exact ⟨rfl, rfl, fun i entry hget hinbound => by
    simpa [owes] using horder i entry hget hinbound⟩

/-- A served connection is closed and its handlers are told. -/
theorem Tracked.end {c c' : Conn} {f : Frame} {fs : List Frame} (h : Tracked c (f :: fs))
    (hf : f.waiting) (hserves : c.serves)
    (hstatus : c'.status = { c.status with closed := true }) (hseen : ∀ i, c'.seen i = c.seen i) :
    Tracked c' (.deliver .inactive 0 :: .removeConn :: fs) := by
  obtain ⟨halive, hopen, hserved⟩ := h.served hf hserves
  obtain ⟨htail, hnil⟩ := h.waiting hf
  have hlisted : c'.listed = c.listed := congrArg Status.listed hstatus
  have hclosed : c'.closed = true := congrArg Status.closed hstatus
  have hcleared : c'.cleared = c.cleared := congrArg Status.cleared hstatus
  have hhandlers : c'.handlers = c.handlers := congrArg Status.handlers hstatus
  have hstage : c'.stage = c.stage := congrArg Status.stage hstatus
  refine ⟨?_, .inr ⟨by simp [hstage, halive], fun hin => .inl ?_⟩⟩
  · exact sorted_cons_cons Bool.false_ne_true Bool.false_ne_true htail.sorted
  · rw [Conn.hasInbound, hhandlers] at hin
    obtain ⟨hin, hcl, hsaw⟩ := hserved hin
    rw [owing_cons rfl, owing_cons rfl, hnil]
    refine ⟨by rw [hlisted, hclosed, hcleared, hin, hcl]; exact .ending 0, ?_⟩
    intro i entry hget hinbound
    rw [hhandlers] at hget
    obtain ⟨reads, hsaw⟩ := hsaw i entry hget hinbound
    refine ⟨reads, ?_⟩
    rw [hclosed, hseen, hsaw]
    simp [owes, Frame.owes, course, ending]

theorem tracked_onError {c : Conn} {fs : List Frame} (h : Tracked c (.onError :: fs)) :
    Tracked c.onError.1 (ownFrames c.onError.2 ++ fs) := by
  have hstatus := c.onError_status
  have hseen := c.onError_calls.seen
  unfold Conn.onError at *
  by_cases hserves : c.serves
  · rw [if_pos hserves] at *
    exact h.end rfl hserves (by simpa [hserves] using hstatus) hseen
  · rw [if_neg hserves]
    exact (h.waiting rfl).1

theorem tracked_onRead {c : Conn} {n : ReadResult} {fs : List Frame}
    (h : Tracked c (.onRead n :: fs)) :
    Tracked (c.onRead n).1 (ownFrames (c.onRead n).2 ++ fs) := by
  obtain ⟨htail, hnil⟩ := h.waiting rfl
  have hcalls : Conn.Calls c (c.sys [.read]) := ⟨[.read], by simp, rfl⟩
  unfold Conn.onRead
  by_cases hserves : c.serves
  · obtain ⟨halive, hopen, hserved⟩ := h.served rfl hserves
    rw [if_pos hserves]
    cases n with
    | again => exact htail.congr rfl hcalls.seen
    | eof => exact h.end rfl hserves rfl hcalls.seen
    | fail => exact h.end rfl hserves rfl hcalls.seen
    | data =>
      have hread : Reads (c.sys [.read]) ((c.sys [.read]).fireNext .read 0).1 := by
        refine fireNext_reads fun j hj => .inr ⟨rfl, ?_⟩
        obtain ⟨entry, hget, hinbound⟩ := nextInbound_spec hj
        obtain ⟨-, -, hsaw⟩ := hserved (hasInbound_of hget hinbound)
        obtain ⟨reads, hsaw⟩ := hsaw j entry hget hinbound
        unfold Conn.Receptive
        rw [hcalls.seen, hsaw]
        simp [course]
      have hsys : Tracked (c.sys [.read]) fs := htail.congr rfl hcalls.seen
      have hnext := hsys.reads hread
      simp only [ownFrames_append, Conn.fireNext_frames, List.nil_append]
      generalize ((c.sys [.read]).fireNext .read 0).1 = c' at hread hnext
      have hclosed : c'.closed = false :=
        (congrArg Status.closed hread.status).trans hopen
      have halive' : c'.stage = .alive :=
        (congrArg Status.stage hread.status).trans halive
      refine ⟨?_, .inr ⟨by simp [halive'], fun hin => .inl ?_⟩⟩
      · exact sorted_cons_cons Bool.false_ne_true Bool.false_ne_true htail.sorted
      · have hliving := hnext.living halive' hclosed hin
        change Living c' (owing (.deliver .readComplete 0 :: .checkClosed :: fs))
        rw [owing_cons_of_not (by simp [Frame.owing]), owing_cons rfl]
        rw [hnil] at hliving ⊢
        have hphase := hliving.phase
        have horder := hliving.order
        rw [hclosed] at hphase horder
        refine ⟨?_, fun i entry hget hinbound => ?_⟩
        · rw [hclosed]
          generalize c'.listed = listed, c'.cleared = cleared at hphase
          cases hphase
          exact .reading false
        · rw [hclosed]
          simpa [owes, Frame.owes] using horder i entry hget hinbound
  · rw [if_neg hserves]
    exact htail

theorem tracked_onWrite {c : Conn} {fs : List Frame} (hd : completeLifecycle.go .onWrite c fs)
    (h : Tracked c (.onWrite :: fs)) : Tracked c.onWrite fs := by
  obtain ⟨htail, -⟩ := h.waiting rfl
  by_cases hserves : c.serves
  · have hstatus := c.onWrite_status
    by_cases hin : c.hasInbound
    · rw [hd rfl hin, Bool.or_false] at hstatus
      exact htail.congr hstatus c.onWrite_calls.seen
    · have hstage : c.onWrite.stage = c.stage := congrArg Status.stage hstatus
      have hhandlers : c.onWrite.handlers = c.handlers := congrArg Status.handlers hstatus
      refine ⟨htail.sorted, .inr ⟨?_, fun hin' => ?_⟩⟩
      · simp [hstage, (h.served rfl hserves).1]
      · rw [Conn.hasInbound, hhandlers] at hin'
        exact absurd hin' hin
  · unfold Conn.onWrite
    rw [if_neg hserves]
    exact htail

theorem tracked_setup {c : Conn} {fd : ℕ} {handlers : List HandlerEntry} {waterMark : ℕ}
    {fs : List Frame} (h : Tracked c (.setup fd handlers waterMark :: fs)) :
    Tracked (c.setupConnection fd handlers waterMark).1
      (ownFrames (c.setupConnection fd handlers waterMark).2 ++ fs) := by
  obtain ⟨htail, hnil⟩ := h.waiting rfl
  unfold Conn.setupConnection
  split
  · rename_i hunborn
    rcases htail.cases with hfresh | ⟨hborn, -⟩
    · refine ⟨?_, .inr ⟨Stage.noConfusion, fun _ => .inl ⟨?_, fun i _ _ _ => ⟨0, ?_⟩⟩⟩⟩
      · exact sorted_cons_cons Bool.false_ne_true Bool.false_ne_true htail.sorted
      · change Phase c.listed c.closed c.cleared (.deliver .registered 0 :: .activate :: owing fs)
        rw [hfresh.out, hfresh.isOpen, hfresh.cleared, hnil]
        exact .registering 0
      · have hsaw : ∀ c' : Conn, c'.log = c.log ++ [.pollerAdd].map (LogEntry.sys · (some fd)) →
            c'.seen i = [] := fun c' hlog => (Conn.seen_of_log hlog i).trans (hfresh.seen i)
        rw [hsaw _ rfl]
        change [] ++ owes c.closed i (.deliver .registered 0 :: .activate :: owing fs)
          = course 0 (c.closed || decide (.timeout ∈ _ :: _ :: owing fs))
        rw [hfresh.isOpen, hnil]
        rfl
    · exact absurd hunborn hborn
  · exact htail

theorem tracked_release {c : Conn} {fs : List Frame} (h : Tracked c (.release :: fs)) :
    Tracked c.release fs := by
  obtain ⟨htail, -⟩ := h.waiting rfl
  unfold Conn.release
  split
  · rename_i hreleased
    have hborn : c.stage ≠ .unborn := by simp [hreleased.1]
    cases hfd : c.fd with
    | none =>
      exact htail.reads_of_born hborn Stage.noConfusion ⟨rfl, rfl, rfl, rfl⟩ fun _ => .inl rfl
    | some n =>
      exact htail.reads_of_born hborn Stage.noConfusion ⟨rfl, rfl, rfl, rfl⟩ fun i =>
        .inl (Conn.seen_of_log rfl i)
  · exact htail

theorem tracked_go {f : Frame} {c : Conn} {fs : List Frame} (hd : completeLifecycle.go f c fs)
    (hloop : ((worker ι).go f c).1.loopAlive) (h : Tracked c (f :: fs)) :
    Tracked ((worker ι).go f c).1 (ownFrames ((worker ι).go f c).2 ++ fs) := by
  cases f with
  | setup fd handlers waterMark => exact tracked_setup h
  | activate => exact tracked_activate h
  | add => exact tracked_add h
  | onRead n => exact tracked_onRead h
  | checkClosed => exact tracked_checkClosed h
  | onWrite => exact tracked_onWrite hd h
  | onError => exact tracked_onError h
  | timeout => exact tracked_timeout h
  | removeConn => exact tracked_removeConn h
  | closeChannel => exact tracked_closeChannel h
  | deliver ev i => exact tracked_deliver h
  | workerGone => cases hloop
  | release => exact tracked_release h

end XNetty.Event
