import Mathlib.Data.List.ReduceOption
import XNetty.Event.PendingFunctors

/-!
# The functors of one kind in a queue

A queue carries functors for many: each of them asks whether the functors that concern it are
invoked once and in order, whatever becomes of the others. A functor is lost exactly when the
ring is full at the moment it is queued.

## Main definitions

* `PendingFunctors.tasks`, `PendingFunctors.round` — what waits, and what the next round invokes.
* `PendingFunctors.Kept` — no functor of a kind is lost.
* `PendingFunctors.Sound` — the invariant of the calls.
-/

namespace XNetty.Event.PendingFunctors

variable {α β : Type*}

/-- The functors waiting in the ring. -/
def tasks (s : PendingFunctors α) : List α := s.lfBuffer.popAll.2.reduceOption

/-- The ring takes another functor. -/
def HasRoom (s : PendingFunctors α) : Prop := s.tasks.length + 1 < s.lfBuffer.size

instance (s : PendingFunctors α) : Decidable s.HasRoom := inferInstanceAs (Decidable (_ < _))

/-- The functors that the next round invokes. -/
def round (s : PendingFunctors α) : List α :=
  invokeAll (s.lfBuffer.popAll.2 ++ s.pendingFunctors)

variable (kind : α → Option β)

/-- What was queued of a kind has been invoked or waits, in the order of the calls. -/
def Kept (s : PendingFunctors α) : Prop :=
  s.queued.filterMap kind = s.invoked.filterMap kind ++ s.tasks.filterMap kind

/-- The ring keeps functors, `pendingFunctors_` only empty ones, and no functor is there twice. -/
structure Sound (s : PendingFunctors α) : Prop where
  keeps : ∃ lo, s.lfBuffer.Keeps lo (s.tasks.map some)
  empty : ∀ f ∈ s.pendingFunctors, f = none
  le : (s.invoked.filterMap kind ++ s.tasks.filterMap kind).length ≤
    (s.queued.filterMap kind).length

variable {kind} {s : PendingFunctors α}

theorem reduceOption_some (items : List α) : (items.map some).reduceOption = items := by
  induction items with
  | nil => rfl
  | cons item items ih => simpa using ih

theorem tasks_eq {lo : ℕ} {items : List α} (h : s.lfBuffer.Keeps lo (items.map some)) :
    s.tasks = items := by
  rw [tasks, h.popAll.1, reduceOption_some]

/-- A loop in which nothing has been queued. -/
theorem sound_new {n : ℕ} {q : SpscQueue α} (hq : SpscQueue.new n = some q) :
    (new q).Sound kind ∧ (new q).tasks = [] := by
  have hkeeps : (new q).lfBuffer.Keeps 0 (([] : List α).map some) := SpscQueue.new_keeps hq
  have htasks := tasks_eq hkeeps
  refine ⟨⟨⟨0, htasks.symm ▸ hkeeps⟩, fun f hf => absurd hf List.not_mem_nil, ?_⟩, htasks⟩
  rw [htasks]
  exact le_rfl

theorem kept_new {n : ℕ} {q : SpscQueue α} (hq : SpscQueue.new n = some q)
    (kind : α → Option β) : (new q).Kept kind := by
  have hsound : (new q).Sound kind ∧ (new q).tasks = [] := sound_new hq
  rw [Kept, hsound.2]
  rfl

/-! ### Queueing -/

@[simp] theorem queued_queueInLoop (s : PendingFunctors α) (cb : α) :
    (s.queueInLoop cb).queued = s.queued ++ [cb] := rfl

@[simp] theorem invoked_queueInLoop (s : PendingFunctors α) (cb : α) :
    (s.queueInLoop cb).invoked = s.invoked := rfl

theorem filterMap_concat (items : List α) (cb : α) :
    (items ++ [cb]).filterMap kind = items.filterMap kind ++ (kind cb).toList := by
  rw [List.filterMap_append, List.filterMap_cons, List.filterMap_nil]
  cases kind cb <;> rfl

/-- A call that finds room. -/
theorem Sound.queueInLoop_room (h : s.Sound kind) (hroom : s.HasRoom) (cb : α) :
    (s.queueInLoop cb).Sound kind ∧ (s.queueInLoop cb).tasks = s.tasks ++ [cb] := by
  obtain ⟨lo, hkeeps⟩ := h.keeps
  obtain ⟨hpushed, hkept, -⟩ := hkeeps.push (by rw [List.length_map]; exact hroom) (some cb)
  have hring : (s.queueInLoop cb).lfBuffer.Keeps lo ((s.tasks ++ [cb]).map some) := by
    rw [List.map_append]
    exact hkept
  have hpending : (s.queueInLoop cb).pendingFunctors = s.pendingFunctors := if_pos hpushed
  have htasks := tasks_eq hring
  refine ⟨⟨⟨lo, htasks.symm ▸ hring⟩, hpending.symm ▸ h.empty, ?_⟩, htasks⟩
  have hle := h.le
  rw [htasks, invoked_queueInLoop, queued_queueInLoop, filterMap_concat, filterMap_concat]
  simp only [List.length_append] at hle ⊢
  omega

/-- A call that finds the ring full loses its functor. -/
theorem Sound.queueInLoop_full (h : s.Sound kind) (hfull : ¬ s.HasRoom) (cb : α) :
    (s.queueInLoop cb).Sound kind ∧ (s.queueInLoop cb).tasks = s.tasks := by
  obtain ⟨lo, hkeeps⟩ := h.keeps
  have hroom := hkeeps.room
  rw [HasRoom] at hfull
  have hpush := hkeeps.push_full (by rw [List.length_map] at hroom ⊢; omega) (some cb)
  have hring : (s.queueInLoop cb).lfBuffer = s.lfBuffer := congrArg Prod.fst hpush
  have hpending : (s.queueInLoop cb).pendingFunctors = s.pendingFunctors ++ [none] :=
    if_neg (by rw [hpush]; exact Bool.false_ne_true)
  have htasks : (s.queueInLoop cb).tasks = s.tasks := by rw [tasks, hring, tasks]
  refine ⟨⟨⟨lo, htasks.symm ▸ hring.symm ▸ hkeeps⟩, fun f hf => ?_, ?_⟩, htasks⟩
  · rw [hpending] at hf
    rcases List.mem_append.mp hf with hf | hf
    · exact h.empty f hf
    · exact List.mem_singleton.mp hf
  · rw [htasks, invoked_queueInLoop, queued_queueInLoop, filterMap_concat]
    exact h.le.trans (by simp)

theorem Sound.queueInLoop (h : s.Sound kind) (cb : α) : (s.queueInLoop cb).Sound kind := by
  by_cases hroom : s.HasRoom
  · exact (h.queueInLoop_room hroom cb).1
  · exact (h.queueInLoop_full hroom cb).1

/-- **A functor of the kind is kept exactly when the ring has room for it.** -/
theorem Sound.kept_queueInLoop (h : s.Sound kind) (cb : α) :
    (s.queueInLoop cb).Kept kind ↔ s.Kept kind ∧ (kind cb ≠ none → s.HasRoom) := by
  by_cases hroom : s.HasRoom
  · rw [Kept, (h.queueInLoop_room hroom cb).2, invoked_queueInLoop, queued_queueInLoop,
      filterMap_concat, filterMap_concat, ← List.append_assoc, List.append_cancel_right_eq]
    exact (and_iff_left fun _ => hroom).symm
  · rw [Kept, (h.queueInLoop_full hroom cb).2, invoked_queueInLoop, queued_queueInLoop,
      filterMap_concat]
    cases hcb : kind cb with
    | none => simp [Kept]
    | some b =>
      refine iff_of_false (fun heq => ?_) fun hboth => hroom (hboth.2 (by simp))
      have hlen := congrArg List.length heq
      have hle := h.le
      simp only [List.length_append, Option.toList_some, List.length_singleton] at hlen hle
      omega

/-! ### A round -/

theorem Sound.round_eq (h : s.Sound kind) : s.round = s.tasks := by
  obtain ⟨lo, hkeeps⟩ := h.keeps
  rw [round, hkeeps.popAll.1, invokeAll_append_none s.tasks h.empty]

/-- **A round** invokes what waits. -/
theorem Sound.doPendingFunctors (h : s.Sound kind) :
    s.doPendingFunctors.Sound kind ∧ s.doPendingFunctors.tasks = [] ∧
      s.doPendingFunctors.invoked = s.invoked ++ s.tasks ∧
      s.doPendingFunctors.queued = s.queued := by
  obtain ⟨lo, hkeeps⟩ := h.keeps
  have hring : s.doPendingFunctors.lfBuffer.Keeps (lo + (s.tasks.map some).length)
      (([] : List α).map some) := hkeeps.popAll.2.1
  have htasks := tasks_eq hring
  have hinvoked : s.doPendingFunctors.invoked = s.invoked ++ s.tasks :=
    congrArg (s.invoked ++ ·) h.round_eq
  refine ⟨⟨⟨_, htasks.symm ▸ hring⟩, fun f hf => absurd hf List.not_mem_nil, ?_⟩, htasks,
    hinvoked, rfl⟩
  rw [htasks, hinvoked, List.filterMap_append, List.filterMap_nil, List.append_nil]
  exact h.le

theorem Sound.kept_doPendingFunctors (h : s.Sound kind) :
    s.doPendingFunctors.Kept kind ↔ s.Kept kind := by
  obtain ⟨-, htasks, hinvoked, hqueued⟩ := h.doPendingFunctors
  rw [Kept, htasks, hinvoked, hqueued, List.filterMap_append, List.filterMap_nil, List.append_nil,
    Kept]

end XNetty.Event.PendingFunctors
