import XNetty.Event.Lifecycle.Owed

/-!
# Lifecycles and outside code

Calls of handlers and other outside code, and the loops that call the handlers, keep what
handlers have seen and are owed a lifecycle.
-/

namespace XNetty.Event

open Reentrant

/-! ### Calls of outside code -/

theorem fireNext_reads {c : Conn} {ev : LifeEvent} {i : ℕ}
    (h : ∀ j, Conn.nextInbound c.pipeline i = some j →
      ev = .readComplete ∨ ev = .read ∧ c.Receptive j) : Reads c (c.fireNext ev i).1 := by
  refine ⟨c.fireNext_status ev i, fun k => ?_⟩
  unfold Conn.fireNext
  split
  · exact .inl rfl
  · rename_i j hj
    split
    · exact .inl rfl
    · rw [c.visit_seen]
      rcases h j hj with rfl | ⟨rfl, hreceptive⟩
      · exact .inl (by simp)
      · split
        · rename_i hk
          exact .inr ⟨rfl, hk.1 ▸ hreceptive⟩
        · exact .inl (List.append_nil _)

variable {ι : Type*} [DecidableEq ι]

theorem call_seen {a : Api} (hfire : ∀ ev i, a ≠ .fire ev i) (c : Conn) (i : ℕ) :
    ((worker ι).call a c).1.seen i = c.seen i := by
  cases a with
  | close => exact c.close_calls.seen i
  | flush => exact c.flush_calls.seen i
  | fireWrite buf => exact (c.fireWrite_calls buf).seen i
  | setKeepAlive ka => exact (c.setKeepAlive_calls ka).seen i
  | peerAddress => exact c.peerAddress_calls.seen i
  | subscribe topic address cell => exact (c.subscribe_calls topic address).seen i
  | fire ev j => exact absurd rfl (hfire ev j)
  | _ => rfl

theorem call_frames (a : Api) (c : Conn) : ownFrames ((worker ι).call a c).2 =
    if c.closed = false ∧ a.closes c ∧ a.fires c then [.deliver .inactive 0] else [] := by
  cases a with
  | close =>
    change ownFrames c.close.2 = _
    rw [c.close_frames]
    exact if_congr (by simp [Api.closes, Api.fires, and_comm]) rfl rfl
  | fireWrite buf =>
    change ownFrames (c.fireWrite buf).2 = _
    rw [c.fireWrite_frames]
    refine if_congr ?_ rfl rfl
    cases hover : (c.append buf).isWriteBufOverflow <;>
      simp [Api.closes, Api.fires, Conn.writeCloses, hover, and_comm]
  | fire ev i =>
    simp only [worker]
    split <;> simp [Api.closes]
  | _ => simp [worker, Api.fires]

/-- During its own `onRead` an open connection is closed with its handlers told. -/
theorem Living.fire {c c' : Conn} {fs : List Frame} (h : Living c fs) (hopen : c.closed = false)
    (hreading : .checkClosed ∈ fs) (hstatus : c'.status = { c.status with closed := true })
    (hseen : ∀ i, c'.seen i = c.seen i) : Living c' (.deliver .inactive 0 :: fs) := by
  have hlisted : c'.listed = c.listed := congrArg Status.listed hstatus
  have hclosed : c'.closed = true := congrArg Status.closed hstatus
  have hcleared : c'.cleared = c.cleared := congrArg Status.cleared hstatus
  have hhandlers : c'.handlers = c.handlers := congrArg Status.handlers hstatus
  obtain ⟨hl, hcl, rfl⟩ : c.listed = true ∧ c.cleared = false ∧ fs = [.checkClosed] := by
    have hphase := h.phase
    generalize c.listed = listed, c.cleared = cleared, c.closed = closed at hphase hopen
    cases hphase <;> simp_all
  refine ⟨by rw [hlisted, hclosed, hcleared, hl, hcl]; exact .closing 0, ?_⟩
  intro i entry hget hinbound
  rw [hhandlers] at hget
  obtain ⟨reads, horder⟩ := h.order i entry hget hinbound
  refine ⟨reads, ?_⟩
  rw [hclosed, hseen]
  have hsaw : c.seen i = course reads false := by simpa [hopen, owes, Frame.owes] using horder
  simp [hsaw, owes, Frame.owes, course, ending]

/-- In the tick it has timed out in, a connection may be closed without telling its handlers. -/
theorem Living.flag {c c' : Conn} {fs : List Frame} (h : Living c fs)
    (htimeout : .timeout ∈ fs) (hstatus : c'.status = { c.status with closed := true })
    (hseen : ∀ i, c'.seen i = c.seen i) : Living c' fs := by
  have hlisted : c'.listed = c.listed := congrArg Status.listed hstatus
  have hclosed : c'.closed = true := congrArg Status.closed hstatus
  have hcleared : c'.cleared = c.cleared := congrArg Status.cleared hstatus
  have hhandlers : c'.handlers = c.handlers := congrArg Status.handlers hstatus
  obtain ⟨hl, hcl, rfl⟩ : c.listed = true ∧ c.cleared = false ∧ fs = [.timeout] := by
    have hphase := h.phase
    generalize c.listed = listed, c.cleared = cleared, c.closed = closed at hphase
    cases hphase <;> simp_all
  refine ⟨by rw [hlisted, hclosed, hcleared, hl, hcl]; exact .timedOut true, ?_⟩
  intro i entry hget hinbound
  rw [hhandlers] at hget
  obtain ⟨reads, horder⟩ := h.order i entry hget hinbound
  refine ⟨reads, ?_⟩
  rw [hclosed, hseen]
  simpa [owes, Frame.owes] using horder

theorem nextInbound_spec {c : Conn} {i j : ℕ} (h : Conn.nextInbound c.pipeline i = some j) :
    ∃ entry, c.handlers[j]? = some entry ∧ entry.inbound := by
  obtain ⟨k, hk, rfl⟩ := Option.map_eq_some_iff.mp h
  obtain ⟨hlt, hinbound, -⟩ := List.findIdx?_eq_some_iff_getElem.mp hk
  have hget : c.pipeline[i + k]? = some (c.pipeline.drop i)[k] := by
    rw [← List.getElem?_drop]
    exact List.getElem?_eq_getElem hlt
  refine ⟨_, ?_, hinbound⟩
  rw [← hget]
  unfold Conn.pipeline at hget ⊢
  split at hget
  · cases hget
  · rename_i hcleared
    rw [if_neg hcleared]

theorem tracked_call {a : Api} {c : Conn} {fs : List Frame} (hd : completeLifecycle.call a c fs)
    (hloop : c.loopAlive) (h : Tracked c fs) :
    Tracked ((worker ι).call a c).1 (ownFrames ((worker ι).call a c).2 ++ fs) := by
  have hstatus : ((worker ι).call a c).1.status = _ := call_status a c
  rw [call_frames]
  by_cases hfire : ∀ ev i, a ≠ .fire ev i
  · have hseen := fun i => call_seen (ι := ι) hfire c i
    by_cases hcloses : c.closed = false ∧ a.closes c
    · obtain ⟨hopen, hcloses⟩ := hcloses
      have halive := Api.alive_of_closes hcloses
      rw [hcloses, Bool.or_true] at hstatus
      have hhandlers : ((worker ι).call a c).1.handlers = c.handlers :=
        congrArg Status.handlers hstatus
      have hstage : ((worker ι).call a c).1.stage = c.stage := congrArg Status.stage hstatus
      have hborn : ((worker ι).call a c).1.stage ≠ .unborn := by simp [hstage, halive]
      have hliving := h.living halive hopen
      have hmust := fun hin => (hd hloop hin).1 hopen hcloses
      by_cases hfires : a.fires c
      · rw [if_pos ⟨hopen, hcloses, hfires⟩]
        refine ⟨sorted_cons (by simp [Frame.waiting]) h.sorted, .inr ⟨hborn, fun hin => .inl ?_⟩⟩
        rw [Conn.hasInbound, hhandlers] at hin
        have hreading : .checkClosed ∈ fs := by simpa [hfires] using hmust hin
        exact (hliving hin).fire hopen ((mem_owing rfl).mpr hreading) hstatus hseen
      · rw [if_neg (by simp [hfires])]
        refine ⟨h.sorted, .inr ⟨hborn, fun hin => .inl ?_⟩⟩
        rw [Conn.hasInbound, hhandlers] at hin
        have htimeout : .timeout ∈ fs := by simpa [hfires] using hmust hin
        exact (hliving hin).flag ((mem_owing rfl).mpr htimeout) hstatus hseen
    · rw [if_neg fun hall => hcloses ⟨hall.1, hall.2.1⟩]
      have hsame : (c.closed || a.closes c) = c.closed := by
        cases hclosed : c.closed <;> simp_all
      rw [hsame] at hstatus
      exact h.congr hstatus hseen
  · simp only [ne_eq, not_forall, not_not] at hfire
    obtain ⟨ev, i, rfl⟩ := hfire
    rw [if_neg (by simp [Api.closes])]
    by_cases hremoved : ev = .removed
    · simpa [worker, hremoved] using h
    · have hcall : ((worker ι).call (.fire ev i) c).1 = (c.fireNext ev (i + 1)).1 := by
        simp [worker, hremoved]
      rw [hcall]
      refine h.reads (fireNext_reads fun j hj => ?_)
      obtain ⟨entry, hget, hinbound⟩ := nextInbound_spec hj
      exact (hd hloop (hasInbound_of hget hinbound)).2 ev i j rfl hremoved hj

/-! ### Loops over the handlers -/

/-- The frames around a loop over the handlers, whatever handler it is at. -/
theorem Phase.deliver {l closed cleared : Bool} {ev : LifeEvent} {k : ℕ} {fs : List Frame}
    (h : Phase l closed cleared (.deliver ev k :: fs)) :
    cleared = false ∧ (∀ k', Phase l closed cleared (.deliver ev k' :: fs)) ∧
      (ev ≠ .removed → Phase l closed cleared fs) ∧
      (ev = .removed → ∀ cleared, Phase l closed cleared fs) := by
  cases h with
  | registering k => exact ⟨rfl, .registering, fun _ => .registered, nofun⟩
  | activating k => exact ⟨rfl, .activating, fun _ => .active, nofun⟩
  | closing k => exact ⟨rfl, .closing, fun _ => .reading true, nofun⟩
  | ending k => exact ⟨rfl, .ending, fun _ => .ended, nofun⟩
  | leaving k => exact ⟨rfl, .leaving, fun _ => .left, nofun⟩
  | removing k => exact ⟨rfl, .removing, fun hev => absurd rfl hev, fun _ => .gone⟩

theorem owes_deliver {ev : LifeEvent} (hev : ev ≠ .readComplete) (closed : Bool) (i k : ℕ)
    (fs : List Frame) : owes closed i (.deliver ev k :: fs) =
      (if k ≤ i then [ev] else []) ++ owes closed i fs := by
  cases ev with
  | readComplete => exact absurd rfl hev
  | _ => rfl

/-- The loop ends, and nobody is owed anything by it. -/
theorem Living.endLoop {c : Conn} {ev : LifeEvent} {k : ℕ} {fs : List Frame}
    (hev : ev ≠ .readComplete) (h : Living c (.deliver ev k :: fs))
    (hend : c.pipeline[k]? = none) :
    Living (if ev = .removed then { c with cleared := true } else c) fs := by
  obtain ⟨hcleared, -, hphase, hphase'⟩ := h.phase.deliver
  have horder : ∀ i h, c.handlers[i]? = some h → h.inbound →
      ∃ reads, c.seen i ++ owes c.closed i fs =
        course reads (c.closed || decide (.timeout ∈ fs)) := by
    intro i entry hget hinbound
    obtain ⟨reads, horder⟩ := h.order i entry hget hinbound
    have hlt : i < k := by
      have hlength : c.handlers.length ≤ k := by simpa [Conn.pipeline, hcleared] using hend
      have := (List.getElem?_eq_some_iff.mp hget).1
      omega
    rw [owes_deliver hev, if_neg (by omega), List.nil_append] at horder
    exact ⟨reads, by simpa using horder⟩
  split
  · rename_i hremoved
    exact ⟨hphase' hremoved true, horder⟩
  · rename_i hremoved
    exact ⟨hphase hremoved, horder⟩

/-- The loop calls handler `k`, if the event is one for it. -/
theorem Living.loop {c : Conn} {ev : LifeEvent} {k : ℕ} {fs : List Frame} {entry : HandlerEntry}
    (hev : ev ≠ .readComplete) (h : Living c (.deliver ev k :: fs))
    (hentry : c.pipeline[k]? = some entry) :
    Living (if ev.reaches entry then c.visit ev k entry else c) (.deliver ev (k + 1) :: fs) := by
  obtain ⟨hcleared, hphase, -⟩ := h.phase.deliver
  have hget : c.handlers[k]? = some entry := by simpa [Conn.pipeline, hcleared] using hentry
  have hstatus : (if ev.reaches entry then c.visit ev k entry else c).status = c.status := by
    split
    · exact c.visit_status ..
    · rfl
  generalize hc' : (if ev.reaches entry then c.visit ev k entry else c) = c' at hstatus
  have halike := Alike.of_status hstatus
  refine ⟨halike.phase (hphase (k + 1)), ?_⟩
  intro i entry' hget' hinbound
  rw [halike.handlers] at hget'
  obtain ⟨reads, horder⟩ := h.order i entry' hget' hinbound
  refine ⟨reads, ?_⟩
  have hmem : (.timeout ∈ Frame.deliver ev (k + 1) :: fs) ↔
      .timeout ∈ Frame.deliver ev k :: fs := by
    simp
  rw [halike.closed, decide_eq_decide.mpr hmem, ← horder, owes_deliver hev, owes_deliver hev,
    ← List.append_assoc, ← List.append_assoc]
  congr 1
  by_cases hk : k = i
  · subst hk
    obtain rfl : entry = entry' := by rw [hget] at hget'; exact Option.some.inj hget'
    have hreaches : ev.reaches entry := by simp [LifeEvent.reaches, hinbound]
    rw [← hc', if_pos hreaches, c.visit_seen]
    simp [hev, hinbound]
  · have hsame : c'.seen i = c.seen i := by
      rw [← hc']
      split
      · rw [c.visit_seen]
        simp [hk]
      · rfl
    rw [hsame]
    congr 1
    exact if_congr (by omega) rfl rfl

theorem tracked_readComplete {c : Conn} {k : ℕ} {fs : List Frame}
    (h : Tracked c (.deliver .readComplete k :: fs)) :
    Tracked (c.deliver .readComplete k).1 (ownFrames (c.deliver .readComplete k).2 ++ fs) := by
  have hsorted := (List.pairwise_cons.mp h.sorted).2
  have hcases := h.cases
  rw [owing_cons_of_not (by simp [Frame.owing])] at hcases
  have hnext : Tracked c (.deliver .readComplete (k + 1) :: fs) := by
    refine ⟨sorted_cons (by simp [Frame.waiting]) hsorted, ?_⟩
    rw [owing_cons_of_not (by simp [Frame.owing])]
    exact hcases
  unfold Conn.deliver
  split
  · exact ⟨hsorted, hcases⟩
  · split
    · refine hnext.congr (c.visit_status ..) fun i => ?_
      rw [c.visit_seen]
      simp
    · exact hnext

theorem tracked_deliver {c : Conn} {ev : LifeEvent} {k : ℕ} {fs : List Frame}
    (h : Tracked c (.deliver ev k :: fs)) :
    Tracked (c.deliver ev k).1 (ownFrames (c.deliver ev k).2 ++ fs) := by
  by_cases hev : ev = .readComplete
  · subst hev
    exact tracked_readComplete h
  · have howing : ∀ k, (Frame.deliver ev k).owing := by
      cases ev <;> first | exact fun _ => rfl | simp at hev
    have hstatus := c.deliver_status ev k
    refine h.replace (howing k) (congrArg Status.stage hstatus) (congrArg Status.handlers hstatus)
      ?_ fun hliving => ?_
    · unfold Conn.deliver
      split
      · simp
      · split <;> simp [Frame.waiting]
    · unfold Conn.deliver
      cases hentry : c.pipeline[k]? with
      | none => exact hliving.endLoop hev hentry
      | some entry =>
        have hloop := hliving.loop hev hentry
        have hgs : owing [.deliver ev (k + 1)] = [.deliver ev (k + 1)] := owing_cons (howing _) []
        by_cases hreaches : ev.reaches entry
        · simpa [hreaches, hgs] using hloop
        · simpa [hreaches, hgs] using hloop

end XNetty.Event
