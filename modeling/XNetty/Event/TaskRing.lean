import XNetty.Event.SpscThreads

/-!
# The ring as a queue of tasks

With one thread in `push` at a time the ring is a bounded queue, and whatever was pushed is
popped by the loop. Two pushes that overlap load the same `tail_` and write the same cell.

## Main results

* `SpscThreads.run_fifo` — one producer: first in, first out.
* `SpscThreads.run_allPopped` — several producers: nothing is lost while pushes do not overlap.
-/

namespace XNetty.Event.SpscThreads

variable {ι α : Type*} [DecidableEq ι] {s : SpscThreads ι α} {point : PushPoint α}

/-! ### The loop by itself -/

/-- The loop makes accesses while the other threads rest. -/
def popRun (s : SpscThreads ι α) (accesses : ℕ) : SpscThreads ι α :=
  s.run (List.replicate accesses .popAll)

theorem popRun_succ (s : SpscThreads ι α) (accesses : ℕ) :
    s.popRun (accesses + 1) = s.popStep.popRun accesses := rfl

theorem popRun_add (s : SpscThreads ι α) (m n : ℕ) :
    s.popRun (m + n) = (s.popRun m).popRun n := by
  rw [popRun, List.replicate_add, run_append]
  rfl

omit [DecidableEq ι] in
theorem published_popStep (s : SpscThreads ι α) : s.popStep.published = s.published := by
  unfold popStep
  split
  · rfl
  · rfl
  · split <;> rfl

theorem published_popRun (s : SpscThreads ι α) (accesses : ℕ) :
    (s.popRun accesses).published = s.published := by
  induction accesses generalizing s with
  | zero => rfl
  | succ accesses ih => rw [popRun_succ, ih, published_popStep]

theorem Ordered.popRun (h : s.Ordered point) (accesses : ℕ) :
    (s.popRun accesses).Ordered point := by
  induction accesses generalizing s with
  | zero => exact h
  | succ accesses ih => exact ih h.popStep

/-- The loop of `popAll` ends: each turn takes one of the items it has seen. -/
theorem Ordered.drains (h : s.Ordered point) {hd t : ℕ} (hpopping : s.popping = .draining hd t) :
    ∃ accesses, (s.popRun accesses).popping = .idle ∧ (s.popRun accesses).seen = s.seen := by
  obtain ⟨left, hleft⟩ : ∃ left, s.popped.length + left = s.seen := by
    have hknows := h.popping
    rw [hpopping] at hknows
    exact ⟨_, Nat.add_sub_cancel' hknows.2.2.1⟩
  induction left generalizing s hd with
  | zero =>
    have hknows := h.popping
    rw [hpopping] at hknows
    have hdone : hd = t := by rw [hknows.1, hknows.2.1, ← hleft, Nat.add_zero]
    refine ⟨1, ?_, ?_⟩
    all_goals
      rw [popRun_succ]
      simp only [SpscThreads.popStep, hpopping, if_pos hdone]
      rfl
  | succ left ih =>
    by_cases hdone : hd = t
    · have hseen := (h.storeHead hpopping hdone).1
      omega
    · have hstep : s.popStep.popping = .draining ((hd + 1) &&& s.queue.sizeMask) t ∧
          s.popStep.seen = s.seen ∧ s.popStep.popped.length = s.popped.length + 1 := by
        simp [SpscThreads.popStep, hpopping, hdone]
      obtain ⟨hpopping', hseen', hlength⟩ := hstep
      obtain ⟨accesses, hidle, hseen⟩ := ih h.popStep hpopping' (by omega)
      exact ⟨accesses + 1, hidle, hseen.trans hseen'⟩

theorem Ordered.reaches_idle (h : s.Ordered point) :
    ∃ accesses, (s.popRun accesses).popping = .idle := by
  cases hpopping : s.popping with
  | idle => exact ⟨0, hpopping⟩
  | loadedHead hd =>
    have hnext : s.popStep.popping = .draining hd s.queue.tail := by
      simp [SpscThreads.popStep, hpopping]
    obtain ⟨accesses, hidle, -⟩ := h.popStep.drains hnext
    exact ⟨accesses + 1, hidle⟩
  | draining hd t =>
    obtain ⟨accesses, hidle, -⟩ := h.drains hpopping
    exact ⟨accesses, hidle⟩

omit [DecidableEq ι] in
theorem Ordered.returned_eq (h : s.Ordered point) (hidle : s.popping = .idle) :
    s.returned = s.items.take s.seen := by
  have hknows := h.popping
  rw [hidle] at hknows
  have hbefore : s.returned <+: s.items := h.returned.trans h.popped
  rw [← hknows.2]
  exact List.prefix_iff_eq_take.mp hbefore

/-- A call of `popAll` that nobody disturbs returns everything published. -/
theorem Ordered.popAll (h : s.Ordered point) (hidle : s.popping = .idle) :
    ∃ accesses, (s.popRun accesses).popping = .idle ∧
      (s.popRun accesses).returned = s.items := by
  have hloaded : s.popStep.popping = .loadedHead s.queue.head := by
    simp [SpscThreads.popStep, hidle]
  have hdraining : s.popStep.popStep.popping = .draining s.queue.head s.popStep.queue.tail ∧
      s.popStep.popStep.seen = s.popStep.published.length := by
    rw [SpscThreads.popStep.eq_def s.popStep, hloaded]
    exact ⟨rfl, rfl⟩
  obtain ⟨accesses, hdone, hseen⟩ := h.popStep.popStep.drains hdraining.1
  refine ⟨accesses + 2, hdone, ?_⟩
  have hs : (s.popRun (accesses + 2)).Ordered point := h.popRun _
  have hitems : (s.popRun (accesses + 2)).items = s.items := by
    rw [items, published_popRun]
    rfl
  have hall : (s.popRun (accesses + 2)).seen = s.items.length := by
    rw [length_items, ← published_popStep]
    exact hseen.trans hdraining.2
  rw [hs.returned_eq hdone, hitems, hall, List.take_length]

/-! ### Undisturbed calls -/

/-- The accesses of a `push` that nobody disturbs are `SpscQueue::push`. -/
theorem push_alone {i : ι} (hidle : s.pushing i = .idle) (item : α) :
    ∃ accesses, (s.run (List.replicate accesses (.push i item))).pushing i = .idle ∧
      (s.run (List.replicate accesses (.push i item))).queue =
        (s.queue.push (some item)).1 := by
  by_cases hfull : (s.queue.tail + 1) &&& s.queue.sizeMask = s.queue.head
  · refine ⟨2, ?_, ?_⟩
    all_goals simp [run, step, pushStep, goTo, SpscQueue.push, hidle, hfull]
  · refine ⟨4, ?_, ?_⟩
    all_goals simp [run, step, pushStep, goTo, SpscQueue.push, hidle, hfull]

theorem drain_alone {lo t turns : ℕ} {items : List (Option α)}
    (hpopping : s.popping = .draining (lo % s.queue.size) t)
    (htail : t = (lo + items.length) % s.queue.size) (hroom : items.length < s.queue.size)
    (hholds : Ring.Holds s.queue.size s.queue.buf lo items) (hturns : items.length < turns) :
    (s.popRun (items.length + 1)).popping = .idle ∧
      (s.popRun (items.length + 1)).returned = s.popped ++ items ∧
      (s.popRun (items.length + 1)).queue =
        (SpscQueue.drain t turns s.queue (lo % s.queue.size)).1 := by
  induction items generalizing s lo turns with
  | nil =>
    obtain ⟨turns, rfl⟩ := Nat.exists_eq_succ_of_ne_zero (by omega : turns ≠ 0)
    have hdone : lo % s.queue.size = t := htail.symm
    rw [List.length_nil, Nat.zero_add, popRun_succ, SpscQueue.drain, if_pos hdone,
      List.append_nil]
    simp only [popStep, hpopping, if_pos hdone]
    exact ⟨rfl, rfl, rfl⟩
  | cons item items ih =>
    obtain ⟨turns, rfl⟩ := Nat.exists_eq_succ_of_ne_zero (by omega : turns ≠ 0)
    rw [List.length_cons] at htail hroom hturns
    have hne : lo % s.queue.size ≠ t := by
      rw [htail, ne_eq, Ring.mod_eq_mod_iff (by omega) (by omega)]
      omega
    have hnext : (lo % s.queue.size + 1) &&& s.queue.sizeMask = (lo + 1) % s.queue.size := by
      rw [SpscQueue.and_sizeMask, Nat.mod_add_mod]
    have hstep : s.popStep = { s with
        queue := { s.queue with buf := Function.update s.queue.buf (lo % s.queue.size) none }
        popped := s.popped ++ [item]
        popping := .draining ((lo + 1) % s.queue.size) t } := by
      simp only [popStep, hpopping, if_neg hne, hnext, hholds.front]
    have hsize : s.popStep.queue.size = s.queue.size := by rw [hstep]; rfl
    have hpopping' : s.popStep.popping = .draining ((lo + 1) % s.popStep.queue.size) t := by
      rw [hsize, hstep]
    have hholds' : Ring.Holds s.popStep.queue.size s.popStep.queue.buf (lo + 1) items := by
      rw [hsize, hstep]
      exact hholds.pop none
    obtain ⟨hidle, hreturned, hqueue⟩ := ih hpopping'
      (by rw [htail, hsize, Nat.add_assoc, Nat.add_comm 1]) (by omega) hholds'
      (show items.length < turns by omega)
    rw [hsize, hstep] at hqueue
    rw [hstep] at hidle hreturned
    rw [List.length_cons, popRun_succ, hstep, SpscQueue.drain, if_neg hne, hnext]
    refine ⟨hidle, ?_, hqueue⟩
    rw [hreturned, List.append_assoc]
    rfl

/-- The accesses of a `popAll` that nobody disturbs are `SpscQueue::popAll`. -/
theorem popAll_alone {lo : ℕ} {items : List (Option α)} (hidle : s.popping = .idle)
    (h : s.queue.Keeps lo items) :
    ∃ accesses, (s.popRun accesses).popping = .idle ∧
      (s.popRun accesses).returned = s.popped ++ s.queue.popAll.2 ∧
      (s.popRun accesses).queue = s.queue.popAll.1 := by
  have hloaded : s.popStep.popStep = { s with
      popping := .draining (lo % s.queue.size) s.queue.tail, seen := s.published.length } := by
    simp only [popStep, hidle, h.head]
  have hpopping : s.popStep.popStep.popping =
      .draining (lo % s.popStep.popStep.queue.size) s.queue.tail := by rw [hloaded]
  obtain ⟨hdone, hreturned, hqueue⟩ := drain_alone hpopping (by rw [hloaded]; exact h.tail)
    (by rw [hloaded]; exact h.room) (by rw [hloaded]; exact h.holds) h.room
  rw [hloaded] at hdone hreturned hqueue
  refine ⟨items.length + 1 + 2, ?_⟩
  rw [popRun_succ, popRun_succ, hloaded, h.popAll.1, SpscQueue.popAll, h.head]
  exact ⟨hdone, hreturned, hqueue⟩

/-! ### One producer -/

/-- A bounded queue over `size` cells, first in, first out. -/
structure Fifo (s : SpscThreads ι α) (size : ℕ) : Prop where
  /-- What `popAll` returned was pushed, in this order. -/
  returned : s.returned <+: s.items
  /-- A call of `popAll` returns all that was published when it loaded `tail_`. -/
  complete : s.popping = .idle → s.returned = s.items.take s.seen
  /-- The cell that a thread is about to write has no item that waits. -/
  untouched : ∀ i item t nt, s.pushing i = .loadedHead item t nt →
    t ∉ (s.published.drop s.popped.length).map Prod.snd
  popped : s.popped <+: s.items
  bounded : s.published.length ≤ s.returned.length + (size - 1)
  /-- A refused `push` found all cells but one in use. -/
  refused : ∀ r ∈ s.refused, r.1 = r.2 + (size - 1)

omit [DecidableEq ι] in
/-- A cell with an item in it is not the next to be written. -/
theorem Ordered.untouched {item : α} {t nt : ℕ} (h : s.Ordered (.loadedHead item t nt)) :
    t ∉ (s.published.drop s.popped.length).map Prod.snd := by
  obtain ⟨rfl, -, hroom⟩ := h.pushing
  intro hmem
  obtain ⟨p, hp, hcell⟩ := List.mem_map.mp hmem
  obtain ⟨i, hi, rfl⟩ := List.mem_iff_getElem.mp hp
  rw [List.getElem_drop] at hcell
  rw [List.length_drop] at hi
  have hreturned := h.returned.length_le
  rw [h.cells _ (by omega), h.tail, Ring.mod_eq_mod_iff (by omega) (by omega)] at hcell
  omega

theorem Tidy.fifo (h : s.Tidy) : s.Fifo s.queue.size := by
  obtain ⟨point, hsole, hs⟩ := h
  refine ⟨hs.returned.trans hs.popped, hs.returned_eq, ?_, hs.popped, ?_, fun r hr => ?_⟩
  · intro i item t nt hpushing
    have hbusy : s.pushing i = .idle → ∀ j, s.pushing j = .idle := by
      rw [hpushing]
      intro hidle
      cases hidle
    obtain rfl := hpushing.symm.trans (hsole.acting hbusy).1
    exact hs.untouched
  · have hroom := hs.room
    omega
  · have hrefused := hs.refused r hr
    have hsize := s.queue.size_pos
    omega

theorem apart_sole (s : SpscThreads Unit α) (st : ThreadStep Unit α) : Apart s st := by
  cases st with
  | push i item => exact fun hidle j => hidle
  | popAll => trivial

/-- **The ring is a bounded queue**: for every size and every interleaving of the accesses of
one producer and the loop. -/
theorem run_fifo (α : Type*) {n : ℕ} (hn : n ≤ 2 ^ 63) :
    ∃ size, ∃ q : SpscQueue α, nextPowerOfTwo n = some size ∧ SpscQueue.new n = some q ∧
      ∀ steps : List (ThreadStep Unit α), ((start q).run steps).Fifo size := by
  obtain ⟨size, hsize, -⟩ := nextPowerOfTwo_isSome hn
  obtain ⟨q, hq, hqsize, -⟩ := SpscQueue.new_eq hsize
  refine ⟨size, q, hsize, hq, ?_⟩
  intro steps
  have hfifo := (tidy_run hq (Ledger.along_of_forall apart_sole _ steps)).fifo
  rw [size_run] at hfifo
  rwa [← hqsize]

/-- The default ring of a loop. -/
theorem run_fifo_default :
    ∃ size, ∃ q : SpscQueue ℕ, nextPowerOfTwo 65536 = some size ∧
      SpscQueue.new 65536 = some q ∧
      ∀ steps : List (ThreadStep Unit ℕ), ((start q).run steps).Fifo size :=
  run_fifo ℕ (by decide)

/-! ### Several producers -/

/-- The loop, left alone, ends with exactly the published items returned. -/
def AllPopped (s : SpscThreads ι α) : Prop :=
  ∃ accesses, (s.popRun accesses).popping = .idle ∧ (s.popRun accesses).returned = s.items

theorem Tidy.allPopped (h : s.Tidy) : s.AllPopped := by
  obtain ⟨point, -, hs⟩ := h
  obtain ⟨first, hidle⟩ := hs.reaches_idle
  obtain ⟨second, hdone, hreturned⟩ := (hs.popRun first).popAll hidle
  refine ⟨first + second, ?_, ?_⟩
  all_goals rw [popRun_add]
  · exact hdone
  · rw [hreturned, items, published_popRun]
    rfl

/-- **Tasks of several threads are all kept** in a run in which no `push` begins while another
thread is in one. -/
theorem run_allPopped {n : ℕ} {q : SpscQueue α} (hq : SpscQueue.new n = some q)
    {steps : List (ThreadStep ι α)} (hapart : Ledger.Along step Apart (start q) steps) :
    ((start q).run steps).AllPopped :=
  (tidy_run hq hapart).allPopped

/-- An item that is in no cell and was not popped. -/
structure Overwritten (s : SpscThreads ι α) (item : α) : Prop where
  cell : ∀ i, s.queue.buf i ≠ some item
  popped : some item ∉ s.popped
  returned : some item ∉ s.returned

omit [DecidableEq ι] in
theorem Overwritten.popStep {item : α} (h : s.Overwritten item) : s.popStep.Overwritten item := by
  unfold SpscThreads.popStep
  cases s.popping with
  | idle => exact ⟨h.cell, h.popped, h.returned⟩
  | loadedHead hd => exact ⟨h.cell, h.popped, h.returned⟩
  | draining hd t =>
    dsimp only
    split
    · exact ⟨h.cell, h.popped, h.popped⟩
    · refine ⟨fun i => ?_, ?_, h.returned⟩
      · change Function.update s.queue.buf hd none i ≠ some item
        by_cases hi : i = hd
        · rw [hi, Function.update_self]
          exact Option.some_ne_none item |>.symm
        · rw [Function.update_of_ne hi]
          exact h.cell i
      · intro hmem
        rcases List.mem_append.mp hmem with hmem | hmem
        · exact h.popped hmem
        · exact h.cell hd (List.mem_singleton.mp hmem).symm

/-- The loop never pops what was overwritten. -/
theorem Overwritten.popRun {item : α} (h : s.Overwritten item) (accesses : ℕ) :
    (s.popRun accesses).Overwritten item := by
  induction accesses generalizing s with
  | zero => exact h
  | succ accesses ih => exact ih h.popStep

theorem Overwritten.not_allPopped {item : α} (h : s.Overwritten item)
    (hpublished : some item ∈ s.items) : ¬ s.AllPopped := by
  rintro ⟨accesses, -, hreturned⟩
  exact (h.popRun accesses).returned (hreturned ▸ hpublished)

/-- Threads `false` and `true` push one after the other. -/
theorem run_allPopped_turns :
    ((start (.smallest ℕ)).run (List.replicate 4 (.push false 7) ++
      List.replicate 4 (.push true 8) : List (ThreadStep Bool ℕ))).AllPopped :=
  run_allPopped (SpscQueue.new_smallest ℕ) (by decide)

/-- Two pushes overlap from their first access to their last. -/
def overlap : List (ThreadStep Bool ℕ) :=
  (List.replicate 4 [.push false 7, .push true 8]).flatten

/-- Both pushes return true with plenty of room in the ring, and the first item is gone. -/
theorem not_allPopped_overlap :
    SpscQueue.new 64 = some (.smallest ℕ) ∧
      ((start (.smallest ℕ)).run overlap).items = [some 7, some 8] ∧
      ((start (.smallest ℕ)).run overlap).refused = [] ∧
      ¬ ((start (.smallest ℕ)).run overlap).AllPopped := by
  refine ⟨SpscQueue.new_smallest ℕ, rfl, rfl, ?_⟩
  have hgone : ((start (.smallest ℕ)).run overlap).Overwritten 7 := by
    refine ⟨fun i => ?_, by decide, by decide⟩
    change Function.update (Function.update (fun _ => none) 0 (some 7)) 0 (some 8) i ≠ some 7
    by_cases hi : i = 0
    · simp [hi]
    · simp [Function.update_of_ne hi]
  exact hgone.not_allPopped (by decide)

end XNetty.Event.SpscThreads
