import Mathlib.Tactic
import XNetty.Lib.Ledger

/-!
# Objects that run code of their callers

Objects share one control stack. A frame on it is work one object has yet to do; between the
frames stand places where outside code runs, which may call any object, and so put more frames
on top, before it returns or throws. What an object can see of all this is its own state and
its own frames, so an invariant of every run is proved on these.

## Main definitions

* `Code` — what frames, calls and events do.
* `Machine.step` — one step of the shared stack.
* `Discipline` — conditions on the steps of a run, seen from one object.
* `Code.Inductive` — what an invariant of one object has to survive.
-/

namespace Reentrant

/-- A frame of the object itself, or a place for outside code. An exception leaves a guarded
place and nothing else. -/
inductive Item (φ : Type*) where
  | frame (f : φ)
  | outside (guarded : Bool)

inductive Slot (ι φ : Type*) where
  | frame (i : ι) (f : φ)
  | outside (guarded : Bool)

def Item.owned {ι φ : Type*} (i : ι) : Item φ → Slot ι φ
  | .frame f => .frame i f
  | .outside guarded => .outside guarded

/-- What a frame does when it runs, what a call does, and what an event starts. -/
structure Code (ι σ φ α ε : Type*) where
  go : φ → σ → σ × List (Item φ)
  call : α → σ → σ × List (Item φ)
  start : ε → (ι → σ) → List (Slot ι φ)

structure Machine (ι σ φ : Type*) where
  objects : ι → σ
  stack : List (Slot ι φ) := []

/-- The environment starts an event on an idle machine, lets the topmost frame run, calls an
object from outside code, or has outside code return or throw. -/
inductive Choice (ι α ε : Type*) where
  | start (e : ε)
  | go
  | call (i : ι) (a : α)
  | ret
  | throw

variable {ι σ φ α ε : Type*}

/-- An exception takes everything off the stack down to the nearest guarded place. -/
def unwind : List (Slot ι φ) → List (Slot ι φ)
  | [] => []
  | .outside true :: rest => rest
  | _ :: rest => unwind rest

theorem unwind_suffix (stack : List (Slot ι φ)) : unwind stack <:+ stack := by
  fun_induction unwind stack with
  | case1 => exact List.suffix_rfl
  | case2 rest => exact List.suffix_cons _ _
  | case3 slot rest _ ih => exact ih.trans (List.suffix_cons _ _)

variable [DecidableEq ι]

def Machine.step (code : Code ι σ φ α ε) (m : Machine ι σ φ) : Choice ι α ε → Machine ι σ φ
  | .start e =>
    match m.stack with
    | [] => { m with stack := code.start e m.objects }
    | _ => m
  | .go =>
    match m.stack with
    | .frame i f :: rest =>
      let (s, items) := code.go f (m.objects i)
      { objects := Function.update m.objects i s, stack := items.map (Item.owned i) ++ rest }
    | _ => m
  | .call i a =>
    match m.stack with
    | .outside guarded :: rest =>
      let (s, items) := code.call a (m.objects i)
      { objects := Function.update m.objects i s
        stack := items.map (Item.owned i) ++ .outside guarded :: rest }
    | _ => m
  | .ret =>
    match m.stack with
    | .outside _ :: rest => { m with stack := rest }
    | _ => m
  | .throw =>
    match m.stack with
    | .outside _ :: _ => { m with stack := unwind m.stack }
    | _ => m

def Machine.run (code : Code ι σ φ α ε) (m : Machine ι σ φ) (choices : List (Choice ι α ε)) :
    Machine ι σ φ := choices.foldl (Machine.step code) m

/-! ### One object's view -/

def Slot.of (i : ι) : Slot ι φ → Option φ
  | .frame j f => if j = i then some f else none
  | .outside _ => none

/-- The frames of one object, topmost first. -/
def framesOf (i : ι) (stack : List (Slot ι φ)) : List φ := stack.filterMap (Slot.of i)

def Item.own : Item φ → Option φ
  | .frame f => some f
  | .outside _ => none

def ownFrames (items : List (Item φ)) : List φ := items.filterMap Item.own

@[simp] theorem ownFrames_nil : ownFrames ([] : List (Item φ)) = [] := rfl

@[simp] theorem ownFrames_frame (f : φ) (items : List (Item φ)) :
    ownFrames (.frame f :: items) = f :: ownFrames items := rfl

@[simp] theorem ownFrames_outside (guarded : Bool) (items : List (Item φ)) :
    ownFrames (.outside guarded :: items) = ownFrames items := rfl

@[simp] theorem ownFrames_append (items items' : List (Item φ)) :
    ownFrames (items ++ items') = ownFrames items ++ ownFrames items' :=
  List.filterMap_append

@[simp] theorem framesOf_nil (i : ι) : framesOf i ([] : List (Slot ι φ)) = [] := rfl

@[simp] theorem framesOf_append (i : ι) (stack stack' : List (Slot ι φ)) :
    framesOf i (stack ++ stack') = framesOf i stack ++ framesOf i stack' :=
  List.filterMap_append

@[simp] theorem framesOf_outside (i : ι) (guarded : Bool) (stack : List (Slot ι φ)) :
    framesOf i (.outside guarded :: stack) = framesOf i stack := rfl

@[simp] theorem framesOf_frame_self (i : ι) (f : φ) (stack : List (Slot ι φ)) :
    framesOf i (.frame i f :: stack) = f :: framesOf i stack := by
  simp [framesOf, Slot.of]

theorem framesOf_frame_of_ne {i j : ι} (h : j ≠ i) (f : φ) (stack : List (Slot ι φ)) :
    framesOf i (.frame j f :: stack) = framesOf i stack := by
  simp [framesOf, Slot.of, h]

theorem mem_framesOf {i : ι} {f : φ} {stack : List (Slot ι φ)} :
    f ∈ framesOf i stack ↔ .frame i f ∈ stack := by
  constructor
  · intro h
    obtain ⟨slot, hslot, hof⟩ := List.mem_filterMap.mp h
    cases slot with
    | outside guarded => cases hof
    | frame j g =>
      obtain ⟨rfl, rfl⟩ : j = i ∧ g = f := by simpa [Slot.of] using hof
      exact hslot
  · exact fun h => List.mem_filterMap.mpr ⟨_, h, by simp [Slot.of]⟩

theorem framesOf_owned_self (i : ι) (items : List (Item φ)) :
    framesOf i (items.map (Item.owned i)) = ownFrames items := by
  induction items with
  | nil => rfl
  | cons item items ih =>
    cases item with
    | frame f => simpa [Item.owned] using ih
    | outside guarded => simpa [Item.owned] using ih

theorem framesOf_owned_of_ne {i j : ι} (h : j ≠ i) (items : List (Item φ)) :
    framesOf i (items.map (Item.owned j)) = [] := by
  induction items with
  | nil => rfl
  | cons item items ih =>
    cases item with
    | frame f => simpa [Item.owned, framesOf_frame_of_ne h] using ih
    | outside guarded => simpa [Item.owned] using ih

/-! ### Disciplines and invariants -/

/-- What is asked of the steps of a run, each seen by the object it concerns: of a frame that
runs with others of the object beneath it, of a call, and of an exception that drops frames. -/
structure Discipline (σ φ α : Type*) where
  go : φ → σ → List φ → Prop := fun _ _ _ => True
  call : α → σ → List φ → Prop := fun _ _ _ => True
  drop : σ → List φ → List φ → Prop := fun _ _ _ => True

/-- The step that the choice makes meets the discipline. -/
def Discipline.Keeps (d : Discipline σ φ α) (m : Machine ι σ φ) : Choice ι α ε → Prop
  | .start _ => True
  | .go =>
    match m.stack with
    | .frame i f :: rest => d.go f (m.objects i) (framesOf i rest)
    | _ => True
  | .call i a =>
    match m.stack with
    | .outside _ :: rest => d.call a (m.objects i) (framesOf i rest)
    | _ => True
  | .ret => True
  | .throw =>
    match m.stack with
    | .outside _ :: _ =>
      ∀ i, d.drop (m.objects i) (framesOf i m.stack) (framesOf i (unwind m.stack))
    | _ => True

/-- An invariant of one object and its frames that every step of the discipline keeps. -/
structure Code.Inductive (code : Code ι σ φ α ε) (d : Discipline σ φ α)
    (I : σ → List φ → Prop) : Prop where
  start : ∀ e objects i, I (objects i) [] → I (objects i) (framesOf i (code.start e objects))
  go : ∀ f s fs, d.go f s fs → I s (f :: fs) →
    I (code.go f s).1 (ownFrames (code.go f s).2 ++ fs)
  call : ∀ a s fs, d.call a s fs → I s fs → I (code.call a s).1 (ownFrames (code.call a s).2 ++ fs)
  drop : ∀ s fs fs', fs' <:+ fs → d.drop s fs fs' → I s fs → I s fs'

variable {code : Code ι σ φ α ε} {d : Discipline σ φ α} {I : σ → List φ → Prop}

/-- The invariant holds of every object. -/
def Machine.Satisfies (m : Machine ι σ φ) (I : σ → List φ → Prop) : Prop :=
  ∀ i, I (m.objects i) (framesOf i m.stack)

/-- Changing one object and putting its items on the stack. -/
theorem Machine.Satisfies.push {m : Machine ι σ φ} (h : m.Satisfies I) {i : ι} {s : σ}
    {items : List (Item φ)} {rest : List (Slot ι φ)}
    (hrest : ∀ j, j ≠ i → framesOf j rest = framesOf j m.stack)
    (hi : I s (ownFrames items ++ framesOf i rest)) :
    Machine.Satisfies
      { objects := Function.update m.objects i s
        stack := items.map (Item.owned i) ++ rest } I := by
  intro j
  by_cases hj : j = i
  · subst hj
    simpa [framesOf_owned_self] using hi
  · have hsame := h j
    rw [← hrest j hj] at hsame
    simpa [hj, framesOf_owned_of_ne (Ne.symm hj)] using hsame

theorem Code.Inductive.step (hI : code.Inductive d I) {m : Machine ι σ φ} (h : m.Satisfies I)
    {choice : Choice ι α ε} (hkeeps : d.Keeps m choice) : (m.step code choice).Satisfies I := by
  obtain ⟨objects, stack⟩ := m
  cases choice with
  | start e =>
    cases stack with
    | nil => exact fun i => hI.start e objects i (h i)
    | cons slot rest => exact h
  | go =>
    match stack, h, hkeeps with
    | [], h, _ => exact h
    | .outside guarded :: rest, h, _ => exact h
    | .frame i f :: rest, h, hkeeps =>
      refine h.push (fun j hj => (framesOf_frame_of_ne hj.symm f rest).symm) ?_
      exact hI.go f (objects i) _ hkeeps (by simpa using h i)
  | call i a =>
    match stack, h, hkeeps with
    | [], h, _ => exact h
    | .frame j f :: rest, h, _ => exact h
    | .outside guarded :: rest, h, hkeeps =>
      exact h.push (fun j _ => rfl) (hI.call a (objects i) _ hkeeps (h i))
  | ret =>
    match stack, h with
    | [], h => exact h
    | .frame j f :: rest, h => exact h
    | .outside guarded :: rest, h => exact h
  | throw =>
    match stack, h, hkeeps with
    | [], h, _ => exact h
    | .frame j f :: rest, h, _ => exact h
    | .outside guarded :: rest, h, hkeeps =>
      intro i
      refine hI.drop _ _ _ ?_ (hkeeps i) (h i)
      exact (unwind_suffix _).filterMap _

/-- **Runs.** An inductive invariant that holds at the start holds after every run whose steps
keep the discipline. -/
theorem Code.Inductive.run (hI : code.Inductive d I) {m : Machine ι σ φ} (h : m.Satisfies I)
    {choices : List (Choice ι α ε)} (hkeeps : Ledger.Along (Machine.step code) d.Keeps m choices) :
    (m.run code choices).Satisfies I :=
  hkeeps.preserves (Machine.Satisfies · I) (fun _ _ h hkeeps => hI.step h hkeeps) h

theorem Discipline.keeps_trivial (m : Machine ι σ φ) (choice : Choice ι α ε) :
    ({} : Discipline σ φ α).Keeps m choice := by
  obtain ⟨objects, stack⟩ := m
  cases choice with
  | throw =>
    match stack with
    | [] | .frame _ _ :: _ => trivial
    | .outside _ :: _ => exact fun _ => trivial
  | go | call i a =>
    match stack with
    | [] | .frame _ _ :: _ | .outside _ :: _ => trivial
  | _ => trivial

/-- An inductive invariant that asks nothing of the steps holds after every run. -/
theorem Code.Inductive.run_of_trivial (hI : code.Inductive {} I) {m : Machine ι σ φ}
    (h : m.Satisfies I) (choices : List (Choice ι α ε)) : (m.run code choices).Satisfies I :=
  hI.run h (Ledger.along_of_forall Discipline.keeps_trivial m choices)

end Reentrant
