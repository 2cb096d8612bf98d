import XNetty.Buffer.ByteQueue

/-!
# Room for what is added

A call on one buffer comes back, leaves the indices in order and stays in front of the writer index
just when what it adds can be counted and doubling makes room for it.

## Main definitions

* `RawBuf.Excessive`, `RawBuf.HasRoom` — arguments that ask for too much, and that do not.
* `RawBuf.SafeRun` — what is expected of a call on one buffer.
* `RawBuf.safeRun_iff` — when it is met.
-/

namespace XNetty

namespace RawBuf

/-- How many bytes a call takes from the front. -/
def Op.taken : Op → Option UInt64
  | .readByte => some 1
  | .readBytes len | .readString len | .readStringView len => some len
  | _ => none

/-- How many bytes a call needs room for. -/
def Op.added : Op → Option UInt64
  | .writeByte _ => some 1
  | .writeBytes src => some (UInt64.ofNat src.length)
  | .writeString s => some (UInt64.ofNat s.length)
  | .ensureWritable len => some len
  | _ => none

/-- More is taken than there is, or so much is added that no word counts it. -/
def Excessive (b : RawBuf) (op : Op) : Prop :=
  (∃ len ∈ op.taken, b.writerIndex.toNat < b.readerIndex.toNat + len.toNat) ∨
    ∃ len ∈ op.added, 2 ^ 64 ≤ b.writerIndex.toNat + len.toNat

/-- What is added can be counted, and doubling makes room for it. -/
def HasRoom (b : RawBuf) (op : Op) : Prop :=
  ∀ len ∈ op.added, b.writerIndex.toNat + len.toNat < 2 ^ 64 ∧ b.Expandable len

/-- What is expected of a call on one buffer. -/
structure SafeRun (granted : Bool) (b : RawBuf) (op : Op) : Prop where
  comesBack : (b.run granted op).1 ≠ .never
  ordered : (b.run granted op).2.Ordered
  throws : b.Excessive op →
    (∀ answer, (b.run granted op).1 ≠ .returned answer) ∧ (b.run granted op).2 = b
  within : ∀ what, (b.run granted op).1 = .returned (.copied what) →
    what.index.toNat + what.len.toNat ≤ b.writerIndex.toNat

variable {b : RawBuf}

/-- A sum that wraps around is taken for a small one, so nothing is done for it. -/
theorem ensureWritable_of_wraps (h : b.Ordered) (granted : Bool) {len : UInt64}
    (hwraps : 2 ^ 64 ≤ b.writerIndex.toNat + len.toNat) :
    b.ensureWritable granted len = (.returned (), b) := by
  have hw := h.writer_le
  have hlen := len.toNat_lt
  have hwriter := b.writerIndex.toNat_lt
  have hsmall : ¬b.writerIndex + len > b.capacity := by
    rw [gt_iff_lt, UInt64.lt_iff_toNat_lt, toNat_capacity, UInt64.toNat_add]
    omega
  rw [ensureWritable, if_neg hsmall]

theorem writeBytes_returns_of_wraps (h : b.Ordered) (granted : Bool) {src : Bytes}
    (hwraps : 2 ^ 64 ≤ b.writerIndex.toNat + (UInt64.ofNat src.length).toNat) :
    (b.writeBytes granted src).1 = .returned () := by
  rw [writeBytes, ensureWritable_of_wraps h granted hwraps]

theorem length_data_store (b : RawBuf) {index : UInt64} (hindex : index.toNat ≤ b.data.length)
    (src : Bytes) : (b.store index src).data.length = b.data.length := by
  have hdata : (b.store index src).data =
      (b.data.take index.toNat ++ src ++ b.data.drop (index.toNat + src.length)).take
        b.data.length := rfl
  rw [hdata, List.length_take, List.length_append, List.length_append, List.length_take,
    List.length_drop]
  omega

/-- What a call that adds `len` bytes may come to when the sum does not wrap around. -/
def Added (b : RawBuf) (len : UInt64) (result : Outcome Unit × RawBuf) : Prop :=
  (¬b.Expandable len ∧ result = (.never, b)) ∨
    b.Expandable len ∧ (result = (.badAlloc, b) ∨ result.1 = .returned () ∧ result.2.Ordered)

theorem added_ensureWritable (h : b.Ordered) (granted : Bool) {len : UInt64}
    (hsize : b.writerIndex.toNat + len.toNat < 2 ^ 64) :
    b.Added len (b.ensureWritable granted len) := by
  obtain hnever | ⟨hexp, ⟨_, heq⟩ | ⟨b', heq, hordered, _⟩⟩ := ensureWritable_spec h granted hsize
  · exact .inl hnever
  · exact .inr ⟨hexp, .inl heq⟩
  · exact .inr ⟨hexp, .inr (by rw [heq]; exact ⟨rfl, hordered⟩)⟩

theorem added_writeBytes (h : b.Ordered) (granted : Bool) {src : Bytes}
    (hsize : b.writerIndex.toNat + (UInt64.ofNat src.length).toNat < 2 ^ 64) :
    b.Added (UInt64.ofNat src.length) (b.writeBytes granted src) := by
  generalize hlen : UInt64.ofNat src.length = len at hsize
  obtain ⟨hnot, heq⟩ | ⟨hexp, ⟨_, heq⟩ | ⟨b', heq, hordered, _, hwriter, hroom⟩⟩ :=
    ensureWritable_spec h granted hsize
  · exact .inl ⟨hnot, by rw [writeBytes, hlen, heq]⟩
  · exact .inr ⟨hexp, .inl (by rw [writeBytes, hlen, heq])⟩
  · refine .inr ⟨hexp, .inr ?_⟩
    rw [writeBytes, hlen, heq]
    refine ⟨rfl, ?_⟩
    have hr := hordered.reader_le
    have hdata := b'.length_data_store hordered.writer_le src
    have hsum : (b'.writerIndex + len).toNat = b'.writerIndex.toNat + len.toNat := by
      rw [hwriter, toNat_add_of_lt hsize]
    constructor
    · change b'.readerIndex.toNat ≤ (b'.writerIndex + len).toNat
      omega
    · change (b'.writerIndex + len).toNat ≤ (b'.store b'.writerIndex src).data.length
      rw [hsum, hdata, hwriter]
      exact hroom

/-- A call that adds something is safe just when there is room for it. -/
theorem safeRun_iff_of_added (h : b.Ordered) {granted : Bool} {op : Op} {len : UInt64}
    {result : Outcome Unit × RawBuf}
    (hrun : b.run granted op = result.map (Outcome.map fun _ => .nothing) id)
    (htaken : op.taken = none) (hlen : op.added = some len)
    (hwraps : 2 ^ 64 ≤ b.writerIndex.toNat + len.toNat → result.1 = .returned ())
    (hadded : b.writerIndex.toNat + len.toNat < 2 ^ 64 → b.Added len result) :
    b.SafeRun granted op ↔ b.HasRoom op := by
  have hroom : b.HasRoom op ↔
      b.writerIndex.toNat + len.toNat < 2 ^ 64 ∧ b.Expandable len := by
    simp [HasRoom, hlen]
  have hexcess : b.Excessive op ↔ 2 ^ 64 ≤ b.writerIndex.toNat + len.toNat := by
    simp [Excessive, htaken, hlen]
  rw [hroom]
  constructor
  · intro hsafe
    have hsmall : b.writerIndex.toNat + len.toNat < 2 ^ 64 := by
      by_contra hlarge
      have hthrows := (hsafe.throws (hexcess.mpr (Nat.le_of_not_lt hlarge))).1 .nothing
      rw [hrun, Prod.map_fst, hwraps (Nat.le_of_not_lt hlarge)] at hthrows
      exact hthrows rfl
    refine ⟨hsmall, ?_⟩
    obtain ⟨_, heq⟩ | ⟨hexp, _⟩ := hadded hsmall
    · exact absurd (by rw [hrun, heq]; rfl) hsafe.comesBack
    · exact hexp
  · rintro ⟨hsmall, hexp⟩
    have hnot : ¬b.Excessive op := fun hex => by
      have := hexcess.mp hex
      omega
    obtain ⟨hnone, _⟩ | ⟨_, heq | ⟨hreturned, hordered⟩⟩ := hadded hsmall
    · exact absurd hexp hnone
    · refine ⟨?_, ?_, fun hex => absurd hex hnot, ?_⟩ <;> rw [hrun, heq]
      · exact fun hne => by cases hne
      · exact h
      · exact fun what hne => by cases hne
    · refine ⟨?_, ?_, fun hex => absurd hex hnot, ?_⟩ <;> rw [hrun]
      · rw [Prod.map_fst, hreturned]
        exact fun hne => by cases hne
      · exact hordered
      · rw [Prod.map_fst, hreturned]
        exact fun what hne => by cases hne

/-- A call that takes something is always safe. -/
theorem safeRun_of_taken (h : b.Ordered) {granted : Bool} {op : Op} {len : UInt64}
    (hrun : b.run granted op = (b.readBytes len).map (Outcome.map .copied) id)
    (hlen : op.taken = some len) (hadded : op.added = none) : b.SafeRun granted op := by
  have hr := h.reader_le
  have hcount := length_readable h
  rw [toNat_readableBytes h] at hcount
  have hexcess : b.Excessive op ↔
      b.writerIndex.toNat < b.readerIndex.toNat + len.toNat := by
    simp [Excessive, hadded, hlen]
  by_cases hle : len.toNat ≤ b.readable.length
  · obtain ⟨b', heq, hordered, _⟩ := readBytes_of_le h hle
    refine ⟨?_, ?_, fun hex => ?_, ?_⟩
    · rw [hrun, heq]
      exact fun hne => by cases hne
    · rw [hrun, heq]
      exact hordered
    · have := hexcess.mp hex
      omega
    · rw [hrun, heq]
      rintro what hwhat
      cases hwhat
      simp only
      omega
  · have heq := readBytes_of_lt h (Nat.lt_of_not_le hle)
    refine ⟨?_, ?_, fun _ => ⟨?_, ?_⟩, ?_⟩ <;> rw [hrun, heq]
    · exact fun hne => by cases hne
    · exact h
    · exact fun answer hne => by cases hne
    · rfl
    · exact fun what hne => by cases hne

/-- A call that neither takes nor adds anything. -/
theorem safeRun_of_ordered {granted : Bool} {op : Op} (htaken : op.taken = none)
    (hadded : op.added = none) (hrun : ∀ what, (b.run granted op).1 ≠ .returned (.copied what))
    (hback : (b.run granted op).1 ≠ .never) (hordered : (b.run granted op).2.Ordered) :
    b.SafeRun granted op := by
  refine ⟨hback, hordered, fun hex => ?_, fun what hwhat => absurd hwhat (hrun what)⟩
  simp [Excessive, htaken, hadded] at hex

theorem hasRoom_of_added {op : Op} (hadded : op.added = none) : b.HasRoom op := by
  intro len hlen
  rw [hadded] at hlen
  cases hlen

theorem safeRun_reserve (h : b.Ordered) (granted : Bool) (n : UInt64) :
    b.SafeRun granted (.reserve n) := by
  have hspec : b.reserve granted n = (.badAlloc, b) ∨
      ∃ b', b.reserve granted n = (.returned (), b') ∧ b'.Ordered := by
    cases granted with
    | true =>
      obtain ⟨b', heq, hordered, _⟩ := readable_reserve h n
      exact .inr ⟨b', heq, hordered⟩
    | false =>
      unfold reserve
      split_ifs
      · exact .inl rfl
      · exact .inr ⟨b, rfl, h⟩
  have hrun : b.run granted (.reserve n) =
      (b.reserve granted n).map (Outcome.map fun _ => .nothing) id := rfl
  obtain heq | ⟨b', heq, hordered⟩ := hspec
  · rw [heq] at hrun
    apply safeRun_of_ordered rfl rfl <;> rw [hrun]
    · exact fun what hne => by cases hne
    · exact fun hne => by cases hne
    · exact h
  · rw [heq] at hrun
    apply safeRun_of_ordered rfl rfl <;> rw [hrun]
    · exact fun what hne => by cases hne
    · exact fun hne => by cases hne
    · exact hordered

/-- **One call on one buffer** is safe just when there is room for what it adds. -/
theorem safeRun_iff (h : b.Ordered) (granted : Bool) (op : Op) :
    b.SafeRun granted op ↔ b.HasRoom op := by
  have hwrite : ∀ src : Bytes,
      (2 ^ 64 ≤ b.writerIndex.toNat + (UInt64.ofNat src.length).toNat →
        (b.writeBytes granted src).1 = .returned ()) ∧
      (b.writerIndex.toNat + (UInt64.ofNat src.length).toNat < 2 ^ 64 →
        b.Added (UInt64.ofNat src.length) (b.writeBytes granted src)) := fun src =>
    ⟨writeBytes_returns_of_wraps h granted, added_writeBytes h granted⟩
  have hvoid : ∀ b' : RawBuf, b'.Ordered → (Op.taken op = none) → (Op.added op = none) →
      b.run granted op = (.returned .nothing, b') → (b.SafeRun granted op ↔ b.HasRoom op) := by
    intro b' hordered htaken hadded hrun
    refine iff_of_true (safeRun_of_ordered htaken hadded ?_ ?_ ?_) (hasRoom_of_added hadded) <;>
      rw [hrun]
    · exact fun what hne => by cases hne
    · exact fun hne => by cases hne
    · exact hordered
  cases op with
  | writeByte x => exact safeRun_iff_of_added h rfl rfl rfl (hwrite [x]).1 (hwrite [x]).2
  | writeBytes src => exact safeRun_iff_of_added h rfl rfl rfl (hwrite src).1 (hwrite src).2
  | writeString s => exact safeRun_iff_of_added h rfl rfl rfl (hwrite s).1 (hwrite s).2
  | ensureWritable len =>
    have hreturns : 2 ^ 64 ≤ b.writerIndex.toNat + len.toNat →
        (b.ensureWritable granted len).1 = .returned () := fun hwraps => by
      rw [ensureWritable_of_wraps h granted hwraps]
    exact safeRun_iff_of_added h rfl rfl rfl hreturns (added_ensureWritable h granted)
  | readByte => exact iff_of_true (safeRun_of_taken h rfl rfl rfl) (hasRoom_of_added rfl)
  | readBytes len => exact iff_of_true (safeRun_of_taken h rfl rfl rfl) (hasRoom_of_added rfl)
  | readString len => exact iff_of_true (safeRun_of_taken h rfl rfl rfl) (hasRoom_of_added rfl)
  | readStringView len => exact iff_of_true (safeRun_of_taken h rfl rfl rfl) (hasRoom_of_added rfl)
  | discard len => exact hvoid _ (readable_discard h len).1 rfl rfl rfl
  | clear => exact hvoid _ (readable_clear b).1 rfl rfl rfl
  | reset => exact hvoid _ (readable_clear b).1 rfl rfl rfl
  | shrink => exact hvoid _ (readable_shrink h granted).1 rfl rfl rfl
  | reserve n => exact iff_of_true (safeRun_reserve h granted n) (hasRoom_of_added rfl)

end RawBuf

end XNetty
