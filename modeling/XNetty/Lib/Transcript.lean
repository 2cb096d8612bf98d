import XNetty.Lib.Ledger

/-!
# Transcripts

A machine answers each call and goes on to its next state. Two machines that stay related give
the same answers, so whatever one of them keeps to itself cannot be seen through its calls.

## Main definitions

* `transcript` — the answers to a list of calls.
* `transcript_eq` — related machines answer alike.
* `view_foldl_iff` — when a view of one machine follows another machine.
* `transcript_of_keeping` — calls that only read can be made in any order.
-/

namespace Transcript

open Ledger

variable {σ τ ι ρ : Type*} {f : σ → ι → ρ × σ} {g : τ → ι → ρ × τ}

/-- The answers to calls made one after the other. -/
def transcript (f : σ → ι → ρ × σ) : σ → List ι → List ρ
  | _, [] => []
  | s, a :: as => (f s a).1 :: transcript f (f s a).2 as

/-- The state behind a call. -/
def next (f : σ → ι → ρ × σ) (s : σ) (a : ι) : σ := (f s a).2

/-- **Related machines answer alike**, as long as the calls meet the condition under which a
call keeps them related. -/
theorem transcript_eq {P : σ → ι → Prop} (R : σ → τ → Prop)
    (hstep : ∀ s t a, R s t → P s a → (f s a).1 = (g t a).1 ∧ R (f s a).2 (g t a).2)
    {s : σ} {t : τ} (hR : R s t) {as : List ι} (h : Along (next f) P s as) :
    transcript f s as = transcript g t as := by
  induction as generalizing s t with
  | nil => rfl
  | cons a as ih =>
    obtain ⟨hanswer, hnext⟩ := hstep s t a hR h.1
    have htail : transcript f (f s a).2 as = transcript g (g t a).2 as := ih hnext h.2
    simp only [transcript, hanswer, htail]

/-- A view follows the other machine at every moment of a run exactly when each call keeps it
following. -/
theorem view_foldl_iff {view : σ → τ} {P : σ → ι → Prop} (I : σ → Prop)
    (hstep : ∀ s a, I s → (view (next f s a) = next g (view s) a ↔ P s a))
    (hI : ∀ s a, I s → P s a → I (next f s a)) {s : σ} (hs : I s) (as : List ι) :
    (∀ done, done <+: as → view (done.foldl (next f) s) = done.foldl (next g) (view s)) ↔
      Along (next f) P s as := by
  induction as generalizing s with
  | nil => exact iff_of_true (fun done h => by rw [List.prefix_nil.mp h]; rfl) trivial
  | cons a as ih =>
    constructor
    · intro h
      have ha : view (next f s a) = next g (view s) a := h [a] (by simp)
      have hP : P s a := (hstep s a hs).mp ha
      refine ⟨hP, (ih (hI s a hs hP)).mp fun done hdone => ?_⟩
      have hcons := h (a :: done) (by simpa using hdone)
      rwa [List.foldl_cons, List.foldl_cons, ← ha] at hcons
    · rintro ⟨hP, hrest⟩ done hdone
      cases done with
      | nil => rfl
      | cons b done =>
        obtain ⟨rfl, htail⟩ := List.cons_prefix_cons.mp hdone
        rw [List.foldl_cons, List.foldl_cons, (ih (hI s b hs hP)).mpr hrest done htail,
          (hstep s b hs).mpr hP]

/-- Calls that keep what a machine answers from can be made in any order. -/
theorem transcript_of_keeping {view : σ → τ} (hview : ∀ s a, (f s a).1 = (g (view s) a).1)
    {as : List ι} (hkeep : ∀ a ∈ as, ∀ s, view (f s a).2 = view s) (s : σ) :
    transcript f s as = as.map fun a => (f s a).1 := by
  suffices h : ∀ t, view t = view s → transcript f t as = as.map fun a => (f s a).1 from h s rfl
  induction as with
  | nil => exact fun t _ => rfl
  | cons a as ih =>
    intro t ht
    have htail := ih (fun b hb => hkeep b (List.mem_cons_of_mem a hb)) (f t a).2
      ((hkeep a List.mem_cons_self t).trans ht)
    have hhead : (f t a).1 = (f s a).1 := by rw [hview, ht, ← hview]
    rw [transcript, List.map_cons, hhead, htail]

end Transcript
