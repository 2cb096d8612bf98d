import XNetty.Buffer.Room

/-!
# The bounds of a byte buffer

The setters, `slice` and `trim` join the other calls, and the arguments are any words. The guards
compare each index with one of its bounds only, and sums that wrap around.

## Main definitions

* `RawBuf.AnyCall`, `RawBuf.performAny` — all public calls.
* `RawBuf.Safe` — what is expected of a call.
* `RawBuf.InBounds` — when it is met.
-/

namespace XNetty

namespace RawBuf

/-- All calls; `granted` tells whether `realloc` finds the memory that it is asked for. -/
inductive AnyCall where
  | plain (granted : Bool) (c : Call)
  | setReaderIndex (i : ℕ) (index : UInt64)
  | setWriterIndex (i : ℕ) (index : UInt64)
  /-- A slice of `j` becomes `i`. -/
  | slice (i j : ℕ) (index len : UInt64)
  | trim (granted : Bool) (i : ℕ) (maxCap : UInt64)

def performAny (s : ℕ → RawBuf) : AnyCall → Outcome Answer × (ℕ → RawBuf)
  | .plain granted c => perform granted s c
  | .setReaderIndex i index =>
    ((s i).setReaderIndex index).map (Outcome.map fun _ => .nothing) (Function.update s i)
  | .setWriterIndex i index =>
    ((s i).setWriterIndex index).map (Outcome.map fun _ => .nothing) (Function.update s i)
  | .slice i j index len =>
    match (s j).slice index len with
    | .returned (what, buf) => (.returned (.copied what), Function.update s i buf)
    | .outOfRange => (.outOfRange, s)
    | .badAlloc => (.badAlloc, s)
    | .never => (.never, s)
  | .trim granted i maxCap =>
    (.returned .nothing, Function.update s i ((s i).trim granted maxCap))

/-- The arguments are out of range, in exact arithmetic. -/
def OutOfRange (s : ℕ → RawBuf) : AnyCall → Prop
  | .plain _ (.on i op) => (s i).Excessive op
  | .plain _ _ => False
  | .setReaderIndex i index => (s i).writerIndex < index
  | .setWriterIndex i index => index < (s i).readerIndex ∨ (s i).capacity < index
  | .slice _ j index len => (s j).writerIndex.toNat < index.toNat + len.toNat
  | .trim .. => False

/-- The buffer that a call copies from. -/
def AnyCall.source : AnyCall → ℕ
  | .plain _ (.on i _) => i
  | .slice _ j _ _ => j
  | _ => 0

/-- What is expected of a call: it comes back and leaves all indices in order; out of range, it
throws and changes nothing; and what it copies lies in front of the writer index. -/
structure Safe (s : ℕ → RawBuf) (c : AnyCall) : Prop where
  comesBack : (performAny s c).1 ≠ .never
  ordered : ∀ i, ((performAny s c).2 i).readerIndex ≤ ((performAny s c).2 i).writerIndex ∧
    ((performAny s c).2 i).writerIndex ≤ ((performAny s c).2 i).capacity
  throws : OutOfRange s c →
    (∀ answer, (performAny s c).1 ≠ .returned answer) ∧ (performAny s c).2 = s
  within : ∀ what, (performAny s c).1 = .returned (.copied what) →
    what.index.toNat + what.len.toNat ≤ (s c.source).writerIndex.toNat

/-- When it is met. -/
def InBounds (s : ℕ → RawBuf) : AnyCall → Prop
  | .plain _ (.on i op) => (s i).HasRoom op
  | .setWriterIndex i index => (s i).readerIndex ≤ index ∨ (s i).capacity < index
  | .slice _ j index len =>
    index.toNat + len.toNat < 2 ^ 64 ∨ (s j).writerIndex < index + len
  | _ => True

open Transcript Ledger

variable {b : RawBuf}

theorem toNat_min (x y : UInt64) : (min x y).toNat = min x.toNat y.toNat := by
  have hmin : min x y = if x ≤ y then x else y := rfl
  rw [hmin, min_def]
  simp only [← UInt64.le_iff_toNat_le]
  split_ifs <;> rfl

theorem ordered_trim (h : b.Ordered) (granted : Bool) (maxCap : UInt64) :
    (b.trim granted maxCap).Ordered := by
  unfold trim
  split_ifs
  · refine ⟨Nat.zero_le _, ?_⟩
    change (min b.readableBytes maxCap).toNat ≤ (b.realloc maxCap).data.length
    rw [length_data_realloc, toNat_min]
    exact min_le_right _ _
  · exact h

/-- All indices are in order. -/
def AllOrdered (s : ℕ → RawBuf) : Prop := ∀ i, (s i).Ordered

theorem AllOrdered.update {s : ℕ → RawBuf} (h : AllOrdered s) {i : ℕ} {b : RawBuf}
    (hb : b.Ordered) : AllOrdered (Function.update s i b) := by
  intro j
  by_cases hj : j = i
  · subst hj
    simpa using hb
  · rw [Function.update_of_ne hj]
    exact h j

/-- The other calls on buffers keep their indices in order. -/
theorem allOrdered_perform {s : ℕ → RawBuf} (h : AllOrdered s) (granted : Bool) {c : Call}
    (hc : ∀ i op, c ≠ .on i op) : AllOrdered (perform granted s c).2 := by
  cases c with
  | on i op => exact absurd rfl (hc i op)
  | make i => exact h.update ordered_empty
  | ofCapacity i n => exact h.update (readable_ofCapacity n).1
  | ofBytes i bytes fits => exact h.update (readable_ofBytes fits).1
  | copy i j => exact h.update (readable_copyOf (h j)).1
  | assign i j =>
    simp only [perform]
    split_ifs
    · exact h.update (readable_copyOf (h j)).1
    · exact h
  | move i j => exact (h.update ordered_empty).update (h j)
  | moveAssign i j =>
    simp only [perform]
    split_ifs
    · exact (h.update ordered_empty).update (h j)
    · exact h
  | swap i j => exact (h.update (h j)).update (h i)
  | equal i j => exact h

theorem ordered_slice (b : RawBuf) (index len : UInt64) :
    ({ (ofCapacity len).store 0 (b.window index len) with writerIndex := len } :
      RawBuf).Ordered := by
  refine ⟨Nat.zero_le _, ?_⟩
  change len.toNat ≤ ((ofCapacity len).store 0 (b.window index len)).data.length
  rw [length_data_store _ (Nat.zero_le _)]
  simp [ofCapacity]

section Calls

variable {s : ℕ → RawBuf} {c : AnyCall}

theorem safe_of_returned {answer : Answer} (hordered : AllOrdered (performAny s c).2)
    (hreturned : (performAny s c).1 = .returned answer)
    (hwithin : ∀ what, answer = .copied what →
      what.index.toNat + what.len.toNat ≤ (s c.source).writerIndex.toNat)
    (hrange : ¬OutOfRange s c) : Safe s c where
  comesBack hne := by
    rw [hreturned] at hne
    cases hne
  ordered i := (ordered_iff _).mp (hordered i)
  throws hout := absurd hout hrange
  within what hwhat := by
    rw [hreturned] at hwhat
    exact hwithin what (Outcome.returned.inj hwhat)

theorem safe_of_thrown (h : AllOrdered s) (hthrown : performAny s c = (.outOfRange, s)) :
    Safe s c := by
  refine ⟨?_, ?_, fun _ => ⟨?_, ?_⟩, ?_⟩ <;> rw [hthrown]
  · exact fun hne => by cases hne
  · exact fun i => (ordered_iff _).mp (h i)
  · exact fun answer hne => by cases hne
  · exact fun what hne => by cases hne

theorem safe_on_iff (h : AllOrdered s) (granted : Bool) (i : ℕ) (op : Op) :
    Safe s (.plain granted (.on i op)) ↔ (s i).SafeRun granted op := by
  have hbuffer : (performAny s (.plain granted (.on i op))).2 i = ((s i).run granted op).2 :=
    Function.update_self i _ s
  constructor
  · rintro ⟨hback, hordered, hthrows, hwithin⟩
    refine ⟨hback, ?_, fun hex => ⟨(hthrows hex).1, ?_⟩, hwithin⟩
    · rw [ordered_iff, ← hbuffer]
      exact hordered i
    · rw [← hbuffer, (hthrows hex).2]
  · rintro ⟨hback, hordered, hthrows, hwithin⟩
    refine ⟨hback, fun j => (ordered_iff _).mp (h.update hordered j),
      fun hex => ⟨(hthrows hex).1, ?_⟩, hwithin⟩
    change Function.update s i ((s i).run granted op).2 = s
    rw [(hthrows hex).2, Function.update_eq_self]

theorem safe_plain_iff (h : AllOrdered s) (granted : Bool) (c : Call) :
    Safe s (.plain granted c) ↔ InBounds s (.plain granted c) := by
  cases c with
  | on i op => exact (safe_on_iff h granted i op).trans (safeRun_iff (h i) granted op)
  | equal i j =>
    exact iff_of_true (safe_of_returned (allOrdered_perform h granted (by simp)) rfl
      (fun what hwhat => by cases hwhat) id) trivial
  | make | ofCapacity | ofBytes | copy | assign | move | moveAssign | swap =>
    exact iff_of_true (safe_of_returned (allOrdered_perform h granted (by simp)) rfl
      (fun what hwhat => by cases hwhat) id) trivial

theorem safe_setReaderIndex (h : AllOrdered s) (i : ℕ) (index : UInt64) :
    Safe s (.setReaderIndex i index) := by
  by_cases hrange : index > (s i).writerIndex
  · apply safe_of_thrown h
    rw [performAny, RawBuf.setReaderIndex, if_pos hrange, Prod.map_apply,
      Function.update_eq_self]
    rfl
  · have heq : performAny s (.setReaderIndex i index) =
        (.returned .nothing, Function.update s i { s i with readerIndex := index }) := by
      rw [performAny, RawBuf.setReaderIndex, if_neg hrange]
      rfl
    refine safe_of_returned ?_ (congrArg Prod.fst heq) (fun what hwhat => by cases hwhat) hrange
    rw [heq]
    exact h.update ⟨UInt64.le_iff_toNat_le.mp (UInt64.not_lt.mp hrange), (h i).writer_le⟩

theorem safe_setWriterIndex_iff (h : AllOrdered s) (i : ℕ) (index : UInt64) :
    Safe s (.setWriterIndex i index) ↔ InBounds s (.setWriterIndex i index) := by
  by_cases hrange : index > (s i).capacity
  · refine iff_of_true (safe_of_thrown h ?_) (.inr hrange)
    rw [performAny, RawBuf.setWriterIndex, if_pos hrange, Prod.map_apply,
      Function.update_eq_self]
    rfl
  · have heq : performAny s (.setWriterIndex i index) =
        (.returned .nothing, Function.update s i { s i with writerIndex := index }) := by
      rw [performAny, RawBuf.setWriterIndex, if_neg hrange]
      rfl
    constructor
    · intro hsafe
      have hordered := hsafe.ordered i
      rw [heq] at hordered
      exact .inl (by simpa using hordered.1)
    · intro hin
      have hle : (s i).readerIndex ≤ index := hin.resolve_right hrange
      refine safe_of_returned ?_ (congrArg Prod.fst heq) (fun what hwhat => by cases hwhat) ?_
      · rw [heq]
        refine h.update ((ordered_iff _).mpr ⟨hle, UInt64.not_lt.mp hrange⟩)
      · rintro (hless | hmore)
        · exact absurd hle (UInt64.not_le.mpr hless)
        · exact hrange hmore

theorem safe_slice_iff (h : AllOrdered s) (i j : ℕ) (index len : UInt64) :
    Safe s (.slice i j index len) ↔ InBounds s (.slice i j index len) := by
  have hwriter := (s j).writerIndex.toNat_lt
  by_cases hrange : index + len > (s j).writerIndex
  · refine iff_of_true (safe_of_thrown h ?_) (.inr hrange)
    rw [performAny, slice, if_pos hrange]
  · have heq : performAny s (.slice i j index len) =
        (.returned (.copied ((s j).copied index len)), Function.update s i
          { (ofCapacity len).store 0 ((s j).window index len) with writerIndex := len }) := by
      rw [performAny, slice, if_neg hrange]
    constructor
    · intro hsafe
      by_contra hout
      have hwraps : 2 ^ 64 ≤ index.toNat + len.toNat :=
        Nat.le_of_not_lt fun hless => hout (.inl hless)
      have hexact : OutOfRange s (.slice i j index len) := by
        change (s j).writerIndex.toNat < index.toNat + len.toNat
        omega
      exact (hsafe.throws hexact).1 _ (congrArg Prod.fst heq)
    · intro hin
      have hexact : index.toNat + len.toNat ≤ (s j).writerIndex.toNat := by
        have hle := UInt64.le_iff_toNat_le.mp (UInt64.not_lt.mp hrange)
        rwa [toNat_add_of_lt (hin.resolve_right hrange)] at hle
      refine safe_of_returned ?_ (congrArg Prod.fst heq) ?_ (Nat.not_lt.mpr hexact)
      · rw [heq]
        exact h.update (ordered_slice (s j) index len)
      · rintro what hwhat
        cases hwhat
        exact hexact

end Calls

/-- **One call** is safe just when it is in bounds. -/
theorem safe_iff {s : ℕ → RawBuf} (h : AllOrdered s) (c : AnyCall) : Safe s c ↔ InBounds s c := by
  cases c with
  | plain granted c => exact safe_plain_iff h granted c
  | setReaderIndex i index => exact iff_of_true (safe_setReaderIndex h i index) trivial
  | setWriterIndex i index => exact safe_setWriterIndex_iff h i index
  | slice i j index len => exact safe_slice_iff h i j index len
  | trim granted i maxCap =>
    exact iff_of_true (safe_of_returned (h.update (ordered_trim (h i) granted maxCap)) rfl
      (fun what hwhat => by cases hwhat) id) trivial

end RawBuf

end XNetty
