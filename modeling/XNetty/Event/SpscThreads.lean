import XNetty.Event.SpscQueue
import XNetty.Lib.Ledger

/-!
# The ring under several threads

`push` and `popAll` are cut into their atomic accesses: loading and storing an index, writing or
moving out of a cell. Threads `ι` push and the thread of the loop pops; a schedule says whose
access is next.

## Main definitions

* `SpscThreads` — the ring, where each thread is, and what went through.
* `SpscThreads.run` — a schedule of accesses.
* `SpscThreads.Ordered` — what the ring holds while at most one thread is in `push`.
-/

namespace XNetty.Event

/-- Where a thread is in `push`. -/
inductive PushPoint (α : Type*) where
  | idle
  | loadedTail (item : α) (t : ℕ)
  | loadedHead (item : α) (t nt : ℕ)
  | wroteSlot (item : α) (t nt : ℕ)
  deriving DecidableEq

/-- Where the loop is in `popAll`. -/
inductive PopPoint where
  | idle
  | loadedHead (h : ℕ)
  | draining (h t : ℕ)
  deriving DecidableEq

/-- A producer makes its next access, in a new `push(item)` when it is in none, or the loop makes
its next one. -/
inductive ThreadStep (ι α : Type*) where
  | push (i : ι) (item : α)
  | popAll

structure SpscThreads (ι α : Type*) where
  queue : SpscQueue α
  pushing : ι → PushPoint α := fun _ => .idle
  popping : PopPoint := .idle
  /-- The items for which `push` stored the index and returns true, with their cells. -/
  published : List (α × ℕ) := []
  /-- What was moved out of the cells. -/
  popped : List (Option α) := []
  /-- What completed calls of `popAll` returned; their cells have been released. -/
  returned : List (Option α) := []
  /-- The items published when the loop last loaded `tail_`. -/
  seen : ℕ := 0
  /-- For each `push` that returned false, the items published and released at its load of
  `head_`. -/
  refused : List (ℕ × ℕ) := []

namespace SpscThreads

variable {ι α : Type*} [DecidableEq ι]

/-- Thread `i` gets to `point`. -/
def goTo (s : SpscThreads ι α) (i : ι) (point : PushPoint α) : SpscThreads ι α :=
  { s with pushing := Function.update s.pushing i point }

/-- The next access of `push` in thread `i`. -/
def pushStep (s : SpscThreads ι α) (i : ι) (item : α) : SpscThreads ι α :=
  match s.pushing i with
  | .idle => s.goTo i (.loadedTail item s.queue.tail)
  | .loadedTail item t =>
    let nt := (t + 1) &&& s.queue.sizeMask
    if nt = s.queue.head then
      { s with refused := s.refused ++ [(s.published.length, s.returned.length)] }.goTo i .idle
    else s.goTo i (.loadedHead item t nt)
  | .loadedHead item t nt =>
    { s with queue := { s.queue with buf := Function.update s.queue.buf t (some item) } }.goTo i
      (.wroteSlot item t nt)
  | .wroteSlot item t nt =>
    { s with
      queue := { s.queue with tail := nt }
      published := s.published ++ [(item, t)] }.goTo i .idle

/-- The next access of `popAll`. -/
def popStep (s : SpscThreads ι α) : SpscThreads ι α :=
  match s.popping with
  | .idle => { s with popping := .loadedHead s.queue.head }
  | .loadedHead h =>
    { s with popping := .draining h s.queue.tail, seen := s.published.length }
  | .draining h t =>
    if h = t then
      { s with queue := { s.queue with head := h }, returned := s.popped, popping := .idle }
    else
      { s with
        queue := { s.queue with buf := Function.update s.queue.buf h none }
        popped := s.popped ++ [s.queue.buf h]
        popping := .draining ((h + 1) &&& s.queue.sizeMask) t }

def step (s : SpscThreads ι α) : ThreadStep ι α → SpscThreads ι α
  | .push i item => s.pushStep i item
  | .popAll => s.popStep

def run (s : SpscThreads ι α) (steps : List (ThreadStep ι α)) : SpscThreads ι α :=
  steps.foldl step s

@[simp] theorem run_append (s : SpscThreads ι α) (steps steps' : List (ThreadStep ι α)) :
    s.run (steps ++ steps') = (s.run steps).run steps' := List.foldl_append ..

/-- A fresh ring that no thread is using. -/
def start (q : SpscQueue α) : SpscThreads ι α := { queue := q }

theorem size_step (s : SpscThreads ι α) (st : ThreadStep ι α) :
    (s.step st).queue.size = s.queue.size := by
  cases st with
  | push i item =>
    unfold step pushStep
    dsimp only
    split
    · rfl
    · split <;> rfl
    · rfl
    · rfl
  | popAll =>
    unfold step popStep
    dsimp only
    split
    · rfl
    · rfl
    · split <;> rfl

theorem size_run (s : SpscThreads ι α) (steps : List (ThreadStep ι α)) :
    (s.run steps).queue.size = s.queue.size := by
  induction steps generalizing s with
  | nil => rfl
  | cons st steps ih => exact (ih (s.step st)).trans (size_step s st)

omit [DecidableEq ι] in
theorem pushing_popStep (s : SpscThreads ι α) : s.popStep.pushing = s.pushing := by
  unfold popStep
  split
  · rfl
  · rfl
  · split <;> rfl

/-- The published items, as their cells held them. -/
def items (s : SpscThreads ι α) : List (Option α) := s.published.map fun p => some p.1

omit [DecidableEq ι] in
@[simp] theorem length_items (s : SpscThreads ι α) : s.items.length = s.published.length :=
  List.length_map _

/-! ### One thread in `push` -/

/-- No thread is in `push` but one that is at `point`. -/
def Sole (pushing : ι → PushPoint α) (point : PushPoint α) : Prop :=
  (pushing = fun _ => .idle) ∧ point = .idle ∨
    ∃ i, pushing = Function.update (fun _ => .idle) i point

/-- A `push` begins while no thread is in one. -/
def Apart (s : SpscThreads ι α) : ThreadStep ι α → Prop
  | .push i _ => s.pushing i = .idle → ∀ j, s.pushing j = .idle
  | .popAll => True

instance [Fintype ι] [DecidableEq α] (s : SpscThreads ι α) (st : ThreadStep ι α) :
    Decidable (Apart s st) :=
  match st with
  | .push i _ => inferInstanceAs (Decidable (s.pushing i = .idle → ∀ j, s.pushing j = .idle))
  | .popAll => .isTrue trivial

theorem Sole.acting {pushing : ι → PushPoint α} {point : PushPoint α} (h : Sole pushing point)
    {i : ι} (hapart : pushing i = .idle → ∀ j, pushing j = .idle) :
    pushing i = point ∧ pushing = Function.update (fun _ => .idle) i point := by
  obtain ⟨rfl, rfl⟩ | ⟨j, rfl⟩ := h
  · exact ⟨rfl, (Function.update_eq_self i _).symm⟩
  · by_cases hij : i = j
    · subst hij
      exact ⟨Function.update_self .., rfl⟩
    · have hidle := hapart (Function.update_of_ne hij _ _) j
      rw [Function.update_self] at hidle
      subst hidle
      refine ⟨Function.update_of_ne hij _ _, ?_⟩
      rw [Function.update_eq_self_iff.mpr rfl, Function.update_eq_self_iff.mpr rfl]

/-! ### What the ring holds -/

end SpscThreads

/-- What has been written to a cell and is not published yet. -/
def PushPoint.written : PushPoint α → List (Option α)
  | .wroteSlot item _ _ => [some item]
  | _ => []

/-- What a thread in `push` has loaded is still so. -/
def PushPoint.Knows (s : SpscThreads ι α) : PushPoint α → Prop
  | .idle => True
  | .loadedTail _ t => t = s.queue.tail
  | .loadedHead _ t nt | .wroteSlot _ t nt =>
    t = s.queue.tail ∧ nt = (s.published.length + 1) % s.queue.size ∧
      s.published.length + 1 < s.returned.length + s.queue.size

/-- What `popAll` has loaded is behind what it will find. -/
def PopPoint.Knows (s : SpscThreads ι α) : PopPoint → Prop
  | .idle => s.returned = s.popped ∧ s.returned.length = s.seen
  | .loadedHead h => s.returned = s.popped ∧ h = s.popped.length % s.queue.size
  | .draining h t =>
    h = s.popped.length % s.queue.size ∧ t = s.seen % s.queue.size ∧
      s.popped.length ≤ s.seen ∧ s.seen ≤ s.published.length

namespace SpscThreads

variable {ι α : Type*}

/-- The ring in a run whose pushes do not overlap, with the one under way at `point`. -/
structure Ordered (s : SpscThreads ι α) (point : PushPoint α) : Prop where
  tail : s.queue.tail = s.published.length % s.queue.size
  head : s.queue.head = s.returned.length % s.queue.size
  cells : ∀ i (h : i < s.published.length), s.published[i].2 = i % s.queue.size
  popped : s.popped <+: s.items
  returned : s.returned <+: s.popped
  room : s.published.length < s.returned.length + s.queue.size
  holds : Ring.Holds s.queue.size s.queue.buf s.popped.length
    (s.items.drop s.popped.length ++ point.written)
  pushing : point.Knows s
  popping : s.popping.Knows s
  refused : ∀ r ∈ s.refused, r.1 + 1 = r.2 + s.queue.size

variable {s : SpscThreads ι α} {point : PushPoint α}

theorem ordered_start (ι : Type*) {n : ℕ} {q : SpscQueue α} (hq : SpscQueue.new n = some q) :
    (start q : SpscThreads ι α).Ordered .idle where
  tail := (SpscQueue.new_keeps hq).tail
  head := (SpscQueue.new_keeps hq).head
  cells := fun i h => absurd h (Nat.not_lt_zero i)
  popped := List.prefix_refl _
  returned := List.prefix_refl _
  room := by
    rw [show (start q : SpscThreads ι α).returned.length = 0 from rfl, Nat.zero_add]
    exact q.size_pos
  holds := Ring.holds_nil _ _ _
  pushing := trivial
  popping := ⟨rfl, rfl⟩
  refused := fun _ h => absurd h List.not_mem_nil

theorem Ordered.popped_le (h : s.Ordered point) : s.popped.length ≤ s.published.length := by
  simpa using h.popped.length_le

theorem Ordered.length_waiting (h : s.Ordered point) :
    s.popped.length + (s.items.drop s.popped.length).length = s.published.length := by
  have hle := h.popped_le
  rw [List.length_drop, length_items]
  omega

/-! ### Steps of a push -/

theorem Ordered.loadTail (h : s.Ordered .idle) (item : α) :
    s.Ordered (.loadedTail item s.queue.tail) :=
  { h with pushing := rfl }

/-- A full ring, as `push` sees it when it loads `head_`. -/
theorem Ordered.full_iff (h : s.Ordered point) :
    (s.queue.tail + 1) &&& s.queue.sizeMask = s.queue.head ↔
      s.published.length + 1 = s.returned.length + s.queue.size := by
  have hle := h.returned.length_le.trans h.popped_le
  rw [SpscQueue.and_sizeMask, h.tail, h.head, Nat.mod_add_mod,
    Ring.mod_eq_mod_succ_iff hle h.room]

theorem Ordered.refuse {item : α} {t : ℕ} (h : s.Ordered (.loadedTail item t))
    (hfull : (t + 1) &&& s.queue.sizeMask = s.queue.head) :
    { s with refused := s.refused ++ [(s.published.length, s.returned.length)] }.Ordered
      .idle := by
  refine { h with pushing := trivial, refused := fun r hr => ?_ }
  rcases List.mem_append.mp hr with hr | hr
  · exact h.refused r hr
  · obtain rfl := List.mem_singleton.mp hr
    rw [show t = s.queue.tail from h.pushing] at hfull
    exact h.full_iff.mp hfull

theorem Ordered.loadHead {item : α} {t : ℕ} (h : s.Ordered (.loadedTail item t))
    (hroom : (t + 1) &&& s.queue.sizeMask ≠ s.queue.head) :
    s.Ordered (.loadedHead item t ((t + 1) &&& s.queue.sizeMask)) := by
  obtain rfl : t = s.queue.tail := h.pushing
  refine { h with pushing := ⟨rfl, ?_, ?_⟩ }
  · rw [SpscQueue.and_sizeMask, h.tail, Nat.mod_add_mod]
  · rw [ne_eq, h.full_iff] at hroom
    have := h.room
    omega

theorem Ordered.writeSlot {item : α} {t nt : ℕ} (h : s.Ordered (.loadedHead item t nt)) :
    { s with queue := { s.queue with buf := Function.update s.queue.buf t (some item) } }.Ordered
      (.wroteSlot item t nt) := by
  obtain ⟨rfl, hnt, hroom⟩ := h.pushing
  refine { h with holds := ?_, pushing := ⟨rfl, hnt, hroom⟩ }
  have hholds := h.holds
  have hwaiting := h.length_waiting
  have hreturned := h.returned.length_le
  rw [show PushPoint.written (.loadedHead item s.queue.tail nt) = [] from rfl,
    List.append_nil] at hholds
  have hpush := hholds.push (by omega) (some item)
  rw [hwaiting, ← h.tail] at hpush
  exact hpush

theorem Ordered.storeTail {item : α} {t nt : ℕ} (h : s.Ordered (.wroteSlot item t nt)) :
    { s with
      queue := { s.queue with tail := nt }
      published := s.published ++ [(item, t)] }.Ordered .idle := by
  obtain ⟨rfl, hnt, hroom⟩ := h.pushing
  have hitems : (s.published ++ [(item, s.queue.tail)]).map (fun p => some p.1) =
      s.items ++ [some item] := List.map_append
  have hle : s.popped.length ≤ s.items.length := h.popped.length_le
  constructor
  case tail =>
    rw [List.length_append]
    exact hnt
  case head => exact h.head
  case cells =>
    intro i hi
    by_cases hlt : i < s.published.length
    · rw [List.getElem_append_left hlt]
      exact h.cells i hlt
    · have hlast : i = s.published.length := by
        rw [List.length_append, List.length_singleton] at hi
        omega
      subst hlast
      rw [List.getElem_concat_length rfl]
      exact h.tail
  case popped =>
    rw [items, hitems]
    exact h.popped.trans (List.prefix_append _ _)
  case returned => exact h.returned
  case room =>
    rw [List.length_append, List.length_singleton]
    exact hroom
  case holds =>
    rw [items, hitems, List.drop_append_of_le_length hle,
      show PushPoint.idle.written = ([] : List (Option α)) from rfl, List.append_nil]
    exact h.holds
  case pushing => trivial
  case popping =>
    have hpopping := h.popping
    revert hpopping
    cases s.popping with
    | idle => exact id
    | loadedHead h => exact id
    | draining h t =>
      rintro ⟨hh, ht, hseen, hle⟩
      exact ⟨hh, ht, hseen, hle.trans (by simp)⟩
  case refused => exact h.refused

/-! ### Steps of the loop -/

/-- The front item waits in the cell that `popAll` is at. -/
theorem Ordered.front (h : s.Ordered point) (hlt : s.popped.length < s.published.length) :
    ∃ item rest, s.items.drop s.popped.length = item :: rest ∧
      s.items.drop (s.popped.length + 1) = rest ∧ s.popped ++ [item] <+: s.items ∧
      s.queue.buf (s.popped.length % s.queue.size) = item := by
  have hitems : s.popped.length < s.items.length := by simpa using hlt
  have hdrop := List.drop_eq_getElem_cons hitems
  obtain ⟨rest, hrest⟩ := h.popped
  have hpopped : s.items.take s.popped.length = s.popped := by
    rw [← hrest]
    exact List.take_left
  refine ⟨_, _, hdrop, rfl, ?_, ?_⟩
  · calc s.popped ++ [s.items[s.popped.length]]
        = s.items.take (s.popped.length + 1) := by rw [List.take_succ_eq_append_getElem, hpopped]
      _ <+: s.items := List.take_prefix _ _
  · have hholds := h.holds
    rw [hdrop, List.cons_append] at hholds
    exact hholds.front

/-- A move out of the cell that `popAll` is at. -/
theorem Ordered.moveOut {t : ℕ} (h : s.Ordered point)
    (hpopping : s.popping = .draining (s.popped.length % s.queue.size) t)
    (hlt : s.popped.length < s.seen) :
    { s with
      queue := { s.queue with
        buf := Function.update s.queue.buf (s.popped.length % s.queue.size) none }
      popped := s.popped ++ [s.queue.buf (s.popped.length % s.queue.size)]
      popping := .draining ((s.popped.length % s.queue.size + 1) &&& s.queue.sizeMask) t
      }.Ordered point := by
  have hknows := h.popping
  rw [hpopping] at hknows
  obtain ⟨-, ht, -, hseen⟩ := hknows
  obtain ⟨item, rest, hdrop, hrest, hpopped, hfront⟩ := h.front (hlt.trans_le hseen)
  have hholds := h.holds
  rw [hdrop, List.cons_append] at hholds
  have hlength : (s.popped ++ [item]).length = s.popped.length + 1 := by simp
  rw [hfront]
  refine { h with popped := hpopped, returned := ?_, holds := ?_, pushing := ?_, popping := ?_ }
  · exact h.returned.trans (List.prefix_append _ _)
  · have hpop := hholds.pop none
    rw [← hrest, ← hlength] at hpop
    exact hpop
  · exact h.pushing
  · refine ⟨?_, ht, by rw [hlength]; exact hlt, hseen⟩
    rw [SpscQueue.and_sizeMask, Nat.mod_add_mod, hlength]
    rfl

/-- The release of the cells at the end of `popAll`. -/
theorem Ordered.storeHead {h t : ℕ} (hs : s.Ordered point) (hpopping : s.popping = .draining h t)
    (hdone : h = t) :
    s.seen = s.popped.length ∧
      { s with queue := { s.queue with head := h }, returned := s.popped, popping := .idle }.Ordered
        point := by
  have hknows := hs.popping
  rw [hpopping] at hknows
  obtain ⟨rfl, rfl, hseen, hpublished⟩ := hknows
  have hroom := hs.room
  have hreturned := hs.returned.length_le
  have heq : s.popped.length = s.seen := (Ring.mod_eq_mod_iff hseen (by omega)).mp hdone
  refine ⟨heq.symm,
    { hs with
      head := rfl
      returned := List.prefix_refl _
      room := ?_
      pushing := ?_
      popping := ⟨rfl, heq⟩ }⟩
  · change s.published.length < s.popped.length + s.queue.size
    omega
  · have hpushing := hs.pushing
    revert hpushing
    cases point with
    | idle => exact id
    | loadedTail item t => exact id
    | loadedHead item t nt | wroteSlot item t nt =>
      rintro ⟨ht, hnt, hlt⟩
      refine ⟨ht, hnt, ?_⟩
      change s.published.length + 1 < s.popped.length + s.queue.size
      omega

theorem Ordered.popStep (h : s.Ordered point) : s.popStep.Ordered point := by
  have hknows := h.popping
  unfold SpscThreads.popStep
  cases hpopping : s.popping with
  | idle =>
    rw [hpopping] at hknows
    refine { h with pushing := h.pushing, popping := ⟨hknows.1, ?_⟩ }
    rw [h.head, hknows.1]
  | loadedHead hd =>
    rw [hpopping] at hknows
    refine { h with pushing := h.pushing, popping := ⟨hknows.2, h.tail, h.popped_le, le_rfl⟩ }
  | draining hd t =>
    rw [hpopping] at hknows
    by_cases hdone : hd = t
    · dsimp only
      rw [if_pos hdone]
      exact (h.storeHead hpopping hdone).2
    · obtain ⟨rfl, rfl, hseen, -⟩ := hknows
      have hne : s.popped.length ≠ s.seen := fun heq => hdone (congrArg (· % s.queue.size) heq)
      dsimp only
      rw [if_neg hdone]
      exact h.moveOut hpopping (by omega)

/-! ### Runs whose pushes do not overlap -/

section Run

variable [DecidableEq ι]

theorem Ordered.goTo {point point' : PushPoint α} (h : s.Ordered point') (i : ι) :
    (s.goTo i point).Ordered point' :=
  { h with pushing := h.pushing, popping := h.popping }

/-- The ring is in order, and the thread in `push`, if any, is where the ring says. -/
def Tidy (s : SpscThreads ι α) : Prop := ∃ point, Sole s.pushing point ∧ s.Ordered point

theorem Tidy.pushStep (h : s.Tidy) {i : ι}
    (hapart : s.pushing i = .idle → ∀ j, s.pushing j = .idle) (item : α) :
    (s.pushStep i item).Tidy := by
  obtain ⟨point, hsole, hs⟩ := h
  obtain ⟨hpoint, hpushing⟩ := hsole.acting hapart
  have hnext (point' : PushPoint α) : Sole (Function.update s.pushing i point') point' := by
    rw [hpushing, Function.update_idem]
    exact .inr ⟨i, rfl⟩
  unfold SpscThreads.pushStep
  rw [hpoint]
  cases point with
  | idle => exact ⟨_, hnext _, (hs.loadTail item).goTo i⟩
  | loadedTail item t =>
    dsimp only
    split
    · exact ⟨_, hnext _, (hs.refuse ‹_›).goTo i⟩
    · exact ⟨_, hnext _, (hs.loadHead ‹_›).goTo i⟩
  | loadedHead item t nt => exact ⟨_, hnext _, hs.writeSlot.goTo i⟩
  | wroteSlot item t nt => exact ⟨_, hnext _, hs.storeTail.goTo i⟩

theorem Tidy.step (h : s.Tidy) (st : ThreadStep ι α) (hapart : Apart s st) : (s.step st).Tidy := by
  cases st with
  | push i item => exact h.pushStep hapart item
  | popAll =>
    obtain ⟨point, hsole, hs⟩ := h
    refine ⟨point, ?_, hs.popStep⟩
    change Sole s.popStep.pushing point
    rwa [pushing_popStep]

/-- **One thread in `push` at a time keeps the ring in order.** -/
theorem tidy_run {n : ℕ} {q : SpscQueue α} (hq : SpscQueue.new n = some q)
    {steps : List (ThreadStep ι α)} (hapart : Ledger.Along step Apart (start q) steps) :
    ((start q).run steps).Tidy :=
  hapart.preserves Tidy (fun _ st h => h.step st) ⟨.idle, .inl ⟨rfl, rfl⟩, ordered_start ι hq⟩

end Run

end SpscThreads

end XNetty.Event
