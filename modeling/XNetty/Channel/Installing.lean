import XNetty.Channel.Attachment
import XNetty.Lib.Ledger

/-!
# Installing handlers

Each call on a pipeline tells its handlers what it has to, and the connection comes to the contexts
in a separate pass. Whoever is installed by a call that tells too little, or behind that pass, stays
without.

## Main definitions

* `Installing.step` — the calls on a pipeline, numbered.
* `Installing.FullyAttached` — every handler has been told what it has to be, once.
* `Installing.fullyAttached_iff` — when it is so at every moment.
-/

namespace XNetty

variable {H : Type*}

/-- A pipeline with the number of calls made, and whether `setContext` was one of them. -/
structure Installing (H : Type*) where
  pipeline : ChannelPipeline (Installed H) := {}
  steps : ℕ := 0
  connected : Bool := false

namespace Installing

open ChannelPipeline

inductive Call (H : Type*) where
  | edit (e : Edit H)
  | setContext

variable [ChannelHandler H]

def step (s : Installing H) : Call H → Installing H
  | .edit e => ⟨s.pipeline.edit (e.number s.steps), s.steps + 1, s.connected⟩
  | .setContext => ⟨s.pipeline.setContext, s.steps + 1, true⟩

def run (cs : List (Call H)) : Installing H := cs.foldl step {}

/-- Each handler in the pipeline has been told the pipeline and its context once, and not that it
has left; each that has been there before has been told once that it has left; and every context
has the connection if there is one. -/
structure FullyAttached (cs : List (Call H)) : Prop where
  present : ∀ k ∈ numbers (run cs).pipeline.handlers,
    (attachedIn (run cs).pipeline.calls).count k = 1 ∧
      (addedIn (run cs).pipeline.calls).count k = 1 ∧
      (removedIn (run cs).pipeline.calls).count k = 0
  left : ∀ before, before <+: cs → ∀ k ∈ numbers (run before).pipeline.handlers,
    k ∉ numbers (run cs).pipeline.handlers → (removedIn (run cs).pipeline.calls).count k = 1
  connected : .setContext ∈ cs → ∀ e ∈ (run cs).pipeline.handlers, e.ctx.attached = true

/-- The call finds no base to add a handler next to, and adds none at an end when the connection is
there already. -/
def Attaches (s : Installing H) : Call H → Prop
  | .edit e => ¬ HalfInstalls s.pipeline.handlers e ∧ (s.connected = true → ¬ AddsAtEnd e)
  | .setContext => True

/-- The handlers in the pipeline and those that have left are the ones that have come in, each by
another call. -/
structure Balanced (s : Installing H) : Prop where
  conserved : (numbers s.pipeline.handlers ++ removedIn s.pipeline.calls).Perm
    (addedIn s.pipeline.calls)
  nodup : (addedIn s.pipeline.calls).Nodup
  added_lt : ∀ k ∈ addedIn s.pipeline.calls, k < s.steps
  attached_lt : ∀ k ∈ attachedIn s.pipeline.calls, k < s.steps

omit [ChannelHandler H] in
theorem numbers_setContext (p : ChannelPipeline (Installed H)) :
    numbers p.setContext.handlers = numbers p.handlers := by
  simp [numbers, setContext, Function.comp_def]

/-- A call brings in at most the handler that has its number. -/
theorem effect_step (s : Installing H) (c : Call H) :
    ∃ attached added removed, (attached = [] ∨ attached = [s.steps]) ∧
      (added = [] ∨ added = [s.steps]) ∧
      Effect s.pipeline (s.step c).pipeline attached added removed := by
  cases c with
  | edit e =>
    obtain ⟨hhalf, hwhole⟩ := effect_edit s.pipeline e s.steps
    by_cases he : HalfInstalls s.pipeline.handlers e
    · exact ⟨[], [s.steps], [], .inl rfl, .inr rfl, hhalf he⟩
    · obtain ⟨added, removed, hadded, heffect⟩ := hwhole he
      exact ⟨added, added, removed, hadded, hadded, heffect⟩
  | setContext =>
    refine ⟨[], [], [], .inl rfl, .inl rfl, ?_⟩
    obtain ⟨hattached, hadded, hremoved, -⟩ := Effect.refl s.pipeline
    exact ⟨hattached, hadded, hremoved, by simp [step, numbers_setContext]⟩

theorem steps_step (s : Installing H) (c : Call H) : (s.step c).steps = s.steps + 1 := by
  cases c <;> rfl

theorem Balanced.step {s : Installing H} (h : Balanced s) (c : Call H) : Balanced (s.step c) := by
  obtain ⟨attached, added, removed, hattached, hadded, heffect⟩ := effect_step s c
  have hnew (new : List ℕ) (hn : new = [] ∨ new = [s.steps]) (old : List ℕ)
      (hold : ∀ k ∈ old, k < s.steps) : ∀ k ∈ old ++ new, k < (s.step c).steps := by
    intro k hk
    rw [steps_step]
    rcases List.mem_append.mp hk with hk | hk
    · exact (hold k hk).trans (Nat.lt_succ_self _)
    · rcases hn with rfl | rfl <;> simp_all
  refine ⟨?_, ?_, ?_, ?_⟩
  · rw [heffect.removedIn_eq, heffect.addedIn_eq]
    calc numbers (s.step c).pipeline.handlers ++ (removedIn s.pipeline.calls ++ removed)
      _ |>.Perm (numbers (s.step c).pipeline.handlers ++ (removed ++ removedIn s.pipeline.calls)) :=
        List.perm_append_comm.append_left _
      _ |>.Perm ((numbers s.pipeline.handlers ++ added) ++ removedIn s.pipeline.calls) := by
        rw [← List.append_assoc]
        exact heffect.moved.append_right _
      _ |>.Perm ((numbers s.pipeline.handlers ++ removedIn s.pipeline.calls) ++ added) := by
        rw [List.append_assoc, List.append_assoc]
        exact List.perm_append_comm.append_left _
      _ |>.Perm (addedIn s.pipeline.calls ++ added) := h.conserved.append_right _
  · rw [heffect.addedIn_eq]
    rcases hadded with rfl | rfl
    · simpa using h.nodup
    · refine List.nodup_append.mpr ⟨h.nodup, by simp, ?_⟩
      intro a ha b hb
      obtain rfl := List.mem_singleton.mp hb
      exact (h.added_lt a ha).ne
  · rw [heffect.addedIn_eq]
    exact hnew added hadded _ h.added_lt
  · rw [heffect.attachedIn_eq]
    exact hnew attached hattached _ h.attached_lt

theorem balanced_run (cs : List (Call H)) : Balanced (run cs) :=
  Ledger.foldl_preserves Balanced (fun _ c h => h.step c) ⟨by simp [numbers, removedIn, addedIn],
    by simp [addedIn], by simp [addedIn], by simp [attachedIn]⟩ cs

theorem run_append (cs ds : List (Call H)) : run (cs ++ ds) = ds.foldl step (run cs) :=
  List.foldl_append

/-- Who has come in once has come in for good. -/
theorem addedIn_grows (cs ds : List (Call H)) :
    addedIn (run cs).pipeline.calls <+: addedIn (run (cs ++ ds)).pipeline.calls := by
  rw [run_append]
  refine Ledger.foldl_preserves (fun s : Installing H =>
    addedIn (run cs).pipeline.calls <+: addedIn s.pipeline.calls) (fun s c h => ?_)
    (List.prefix_refl _) ds
  obtain ⟨attached, added, removed, -, -, heffect⟩ := effect_step s c
  rw [heffect.addedIn_eq]
  exact h.trans (List.prefix_append _ _)

theorem connected_run_iff (cs : List (Call H)) : (run cs).connected = true ↔ .setContext ∈ cs := by
  induction cs using List.reverseRecOn with
  | nil => simp [run]
  | append_singleton cs c ih =>
    rw [run_append, List.mem_append, ← ih]
    cases c with
    | edit e => simp [step]
    | setContext => simp [step]

/-! ### When it is so -/

/-- Every handler that has been told its context has been told the pipeline before, and every
context has its connection if there is one. -/
structure Told (s : Installing H) : Prop where
  both : attachedIn s.pipeline.calls = addedIn s.pipeline.calls
  flags : s.connected = true → false ∉ flags s.pipeline.handlers

/-- **One step.** -/
theorem Told.step {s : Installing H} (h : Told s) (c : Call H) (hc : Attaches s c) :
    Told (s.step c) := by
  cases c with
  | edit e =>
    obtain ⟨hhalf, hend⟩ := hc
    obtain ⟨added, removed, -, heffect⟩ := (effect_edit s.pipeline e s.steps).2 hhalf
    constructor
    · exact heffect.attachedIn_eq.trans (by rw [h.both]; exact heffect.addedIn_eq.symm)
    · intro hconnected hmem
      exact h.flags hconnected (mem_flags_edit hhalf (hend hconnected) hmem)
  | setContext =>
    exact ⟨h.both, fun _ => by simp [Installing.step, setContext, ChannelPipeline.flags]⟩

/-- A balanced run in which everybody has been told is as it has to be. -/
theorem fullyAttached_of_told {cs : List (Call H)} (h : Told (run cs)) : FullyAttached cs := by
  have hbalanced := balanced_run cs
  have hnodup := hbalanced.conserved.nodup_iff.mpr hbalanced.nodup
  refine ⟨fun k hk => ?_, fun before hbefore k hk hgone => ?_, fun hset e he => ?_⟩
  · have hadded : k ∈ addedIn (run cs).pipeline.calls :=
      hbalanced.conserved.subset (List.mem_append_left _ hk)
    have hone := List.count_eq_one_of_mem hbalanced.nodup hadded
    have hstays : k ∉ removedIn (run cs).pipeline.calls := fun hleft =>
      (List.nodup_append.mp hnodup).2.2 k hk k hleft rfl
    exact ⟨by rw [h.both]; exact hone, hone, List.count_eq_zero.mpr hstays⟩
  · obtain ⟨rest, rfl⟩ := hbefore
    have hadded := (addedIn_grows before rest).subset
      ((balanced_run before).conserved.subset (List.mem_append_left _ hk))
    have hleft : k ∈ removedIn (run (before ++ rest)).pipeline.calls :=
      (List.mem_append.mp (hbalanced.conserved.symm.subset hadded)).resolve_left hgone
    exact List.count_eq_one_of_mem (List.nodup_append.mp hnodup).2.1 hleft
  · have hflags := h.flags ((connected_run_iff cs).mpr hset)
    by_contra hnot
    exact hflags (List.mem_map.mpr ⟨e, he, Bool.not_eq_true _ |>.mp hnot⟩)

/-- A call that does not attach its handler leaves something to be told. -/
theorem attaches_of_fullyAttached {cs : List (Call H)} {c : Call H}
    (h : FullyAttached (cs ++ [c])) : Attaches (run cs) c := by
  have hrun : run (cs ++ [c]) = (run cs).step c := run_append cs [c]
  cases c with
  | setContext => trivial
  | edit e =>
    refine ⟨fun hhalf => ?_, fun hconnected hend => ?_⟩
    · have hbalanced := balanced_run cs
      have heffect := (effect_edit (run cs).pipeline e (run cs).steps).1 hhalf
      have hmem : (run cs).steps ∈ numbers (run (cs ++ [.edit e])).pipeline.handlers := by
        rw [hrun]
        have hmoved := heffect.moved
        rw [List.append_nil] at hmoved
        exact hmoved.symm.subset (by simp)
      have hone := (h.present _ hmem).1
      have hfresh : (run cs).steps ∉ attachedIn (run cs).pipeline.calls := fun hold =>
        (hbalanced.attached_lt _ hold).false
      have hsame : attachedIn (run (cs ++ [.edit e])).pipeline.calls =
          attachedIn (run cs).pipeline.calls := by
        rw [hrun]
        exact heffect.attachedIn_eq.trans (List.append_nil _)
      rw [hsame, List.count_eq_zero.mpr hfresh] at hone
      cases hone
    · have hset : (.setContext : Call H) ∈ cs ++ [.edit e] :=
        List.mem_append_left _ ((connected_run_iff cs).mp hconnected)
      have hall := h.connected hset
      rw [hrun] at hall
      obtain ⟨e', he', hfalse⟩ := List.mem_map.mp
        (false_mem_flags_edit (p := (run cs).pipeline) (run cs).steps hend)
      exact absurd (hall e' he') (by simp [hfalse])

/-- **Every handler is fully attached** after each of the calls exactly if none of them is an
`addBefore` or `addAfter` that finds its base, and none an `addFirst` or `addLast` behind
`setContext`. -/
theorem fullyAttached_iff (cs : List (Call H)) :
    (∀ done, done <+: cs → FullyAttached done) ↔ Ledger.Along step Attaches {} cs := by
  constructor
  · intro h
    refine (Ledger.along_iff_prefix _ _).mpr fun done c hdone => ?_
    exact attaches_of_fullyAttached (h _ hdone)
  · rintro h done ⟨rest, rfl⟩
    apply fullyAttached_of_told
    refine Ledger.Along.preserves Told (fun _ c hs hc => hs.step c hc) ?_
      ((Ledger.along_append _ _ _).mp h).1
    exact ⟨rfl, fun hconnected => by cases hconnected⟩

/-- Behind `addBefore` and behind `addLast` on a connection. -/
theorem not_fullyAttached :
    ¬ FullyAttached (H := OneWay) [.edit (.addLast [1] .inbound),
        .edit (.addBefore [1] [2] .inbound)] ∧
      ¬ FullyAttached (H := OneWay) [.setContext, .edit (.addLast [1] .inbound)] := by
  constructor
  · intro h
    exact absurd (h.present 1 (by decide)).1 (by decide)
  · intro h
    exact absurd (h.connected (by simp)) (by decide)

end Installing

end XNetty
