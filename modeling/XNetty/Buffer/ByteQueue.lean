import XNetty.Buffer.RawReadable
import XNetty.Lib.Transcript

/-!
# A byte buffer is a queue

## Main definitions

* `RawBuf.Op`, `RawBuf.Call` — the calls on a buffer, and on any number of them.
* `ByteQueue.perform` — what the calls do to queues of bytes.
* `RawBuf.queue_correct` — the buffers answer as the queues do.
-/

namespace XNetty

def Outcome.map {α β : Type} (f : α → β) : Outcome α → Outcome β
  | .returned value => .returned (f value)
  | .outOfRange => .outOfRange
  | .badAlloc => .badAlloc
  | .never => .never

namespace RawBuf

/-- The calls on one buffer. -/
inductive Op where
  | writeByte (x : UInt8)
  | writeBytes (src : Bytes)
  | writeString (s : Bytes)
  | readByte
  | readBytes (len : UInt64)
  | readString (len : UInt64)
  | readStringView (len : UInt64)
  | discard (len : UInt64)
  | clear
  | reset
  | shrink
  | reserve (newCapacity : UInt64)
  | ensureWritable (len : UInt64)
  deriving DecidableEq

/-- The calls on any number of buffers, which go by numbers. -/
inductive Call where
  | on (i : ℕ) (op : Op)
  | make (i : ℕ)
  | ofCapacity (i : ℕ) (initialCapacity : UInt64)
  | ofBytes (i : ℕ) (bytes : Bytes) (fits : bytes.length < 2 ^ 64)
  /-- Copy construction of `i` from `j`. -/
  | copy (i j : ℕ)
  | assign (i j : ℕ)
  /-- Move construction of `i` from `j`. -/
  | move (i j : ℕ)
  | moveAssign (i j : ℕ)
  | swap (i j : ℕ)
  | equal (i j : ℕ)

/-- What a call gives back. -/
inductive Answer where
  | nothing
  | copied (what : Copied)
  | yes (is : Bool)
  deriving DecidableEq

/-- A call on a buffer, with the buffer it leaves behind. -/
def run (granted : Bool) (b : RawBuf) : Op → Outcome Answer × RawBuf
  | .writeByte x => (b.writeByte granted x).map (Outcome.map fun _ => .nothing) id
  | .writeBytes src => (b.writeBytes granted src).map (Outcome.map fun _ => .nothing) id
  | .writeString s => (b.writeString granted s).map (Outcome.map fun _ => .nothing) id
  | .readByte => b.readByte.map (Outcome.map .copied) id
  | .readBytes len => (b.readBytes len).map (Outcome.map .copied) id
  | .readString len => (b.readString len).map (Outcome.map .copied) id
  | .readStringView len => (b.readStringView len).map (Outcome.map .copied) id
  | .discard len => (.returned .nothing, b.discard len)
  | .clear => (.returned .nothing, b.clear)
  | .reset => (.returned .nothing, b.reset)
  | .shrink => (.returned .nothing, b.shrink granted)
  | .reserve n => (b.reserve granted n).map (Outcome.map fun _ => .nothing) id
  | .ensureWritable len => (b.ensureWritable granted len).map (Outcome.map fun _ => .nothing) id

/-- A call, with the buffers it leaves behind. -/
def perform (granted : Bool) (s : ℕ → RawBuf) : Call → Outcome Answer × (ℕ → RawBuf)
  | .on i op => ((s i).run granted op).map id (Function.update s i)
  | .make i => (.returned .nothing, Function.update s i empty)
  | .ofCapacity i n => (.returned .nothing, Function.update s i (RawBuf.ofCapacity n))
  | .ofBytes i bytes fits => (.returned .nothing, Function.update s i (RawBuf.ofBytes bytes fits))
  | .copy i j => (.returned .nothing, Function.update s i (s j).copyOf)
  | .assign i j =>
    (.returned .nothing, if i ≠ j then Function.update s i (s j).copyOf else s)
  | .move i j => (.returned .nothing, Function.update (Function.update s j empty) i (s j))
  | .moveAssign i j =>
    (.returned .nothing,
      if i ≠ j then Function.update (Function.update s j empty) i (s j) else s)
  | .swap i j => (.returned .nothing, Function.update (Function.update s i (s j)) j (s i))
  | .equal i j => (.returned (.yes ((s i).equal (s j))), s)

end RawBuf

/-! ### Queues -/

namespace ByteQueue

open RawBuf (Op Call)

/-- What a call on a queue gives back. -/
inductive Answer where
  | nothing
  | bytes (bs : Bytes)
  | yes (is : Bool)
  deriving DecidableEq

/-- The first bytes of the queue, if it has so many. -/
def read (q : Bytes) (len : ℕ) : Outcome Answer × Bytes :=
  if len ≤ q.length then (.returned (.bytes (q.take len)), q.drop len) else (.outOfRange, q)

/-- A call on a queue of bytes. -/
def run (q : Bytes) : Op → Outcome Answer × Bytes
  | .writeByte x => (.returned .nothing, q ++ [x])
  | .writeBytes src => (.returned .nothing, q ++ src)
  | .writeString s => (.returned .nothing, q ++ s)
  | .readByte => read q 1
  | .readBytes len => read q len.toNat
  | .readString len => read q len.toNat
  | .readStringView len => read q len.toNat
  | .discard len => (.returned .nothing, q.drop (min len.toNat q.length))
  | .clear => (.returned .nothing, [])
  | .reset => (.returned .nothing, [])
  | .shrink => (.returned .nothing, q)
  | .reserve _ => (.returned .nothing, q)
  | .ensureWritable _ => (.returned .nothing, q)

/-- A call on any number of queues. -/
def perform (q : ℕ → Bytes) : Call → Outcome Answer × (ℕ → Bytes)
  | .on i op => ((run (q i) op).1, Function.update q i (run (q i) op).2)
  | .make i => (.returned .nothing, Function.update q i [])
  | .ofCapacity i _ => (.returned .nothing, Function.update q i [])
  | .ofBytes i bytes _ => (.returned .nothing, Function.update q i bytes)
  | .copy i j => (.returned .nothing, Function.update q i (q j))
  | .assign i j => (.returned .nothing, Function.update q i (q j))
  -- A queue that is moved to itself stays what it is.
  | .move i j => (.returned .nothing, Function.update (Function.update q j []) i (q j))
  | .moveAssign i j => (.returned .nothing, Function.update (Function.update q j []) i (q j))
  | .swap i j => (.returned .nothing, Function.update (Function.update q i (q j)) j (q i))
  | .equal i j => (.returned (.yes (q i = q j)), q)

end ByteQueue

namespace RawBuf

/-- The bytes of an answer, whatever their place was. -/
def Answer.seen : Answer → ByteQueue.Answer
  | .nothing => .nothing
  | .copied what => .bytes what.bytes
  | .yes is => .yes is

/-- The size that a call on a buffer comes to. -/
def asks (b : RawBuf) : Op → ℕ
  | .writeByte _ => b.writerIndex.toNat + 1
  | .writeBytes src => b.writerIndex.toNat + src.length
  | .writeString s => b.writerIndex.toNat + s.length
  | .reserve newCapacity => newCapacity.toNat
  | .ensureWritable len => b.writerIndex.toNat + len.toNat
  | _ => 0

/-- The size that a call comes to. -/
def sizeOf (s : ℕ → RawBuf) : Call → ℕ
  | .on i op => (s i).asks op
  | .ofCapacity _ initialCapacity => initialCapacity.toNat
  | .ofBytes _ bytes _ => bytes.length
  | _ => 0

variable {b : RawBuf}

theorem write_spec (h : b.Ordered) {src : Bytes}
    (hsize : b.writerIndex.toNat + src.length < 2 ^ 62) :
    (b.writeBytes true src).1 = .returned () ∧ (b.writeBytes true src).2.Ordered ∧
      (b.writeBytes true src).2.readable = b.readable ++ src := by
  have hlen : (UInt64.ofNat src.length).toNat = src.length :=
    UInt64.toNat_ofNat_of_lt' (show src.length < 2 ^ 64 by omega)
  have hfits : b.writerIndex.toNat + src.length < 2 ^ 64 := by omega
  obtain ⟨hnot, _⟩ | ⟨_, ⟨hno, _⟩ | ⟨b', heq, hordered, hreadable⟩⟩ := writeBytes_spec h true hfits
  · exact absurd (expandable_of_lt (by rwa [hlen])) hnot
  · cases hno
  · rw [heq]
    exact ⟨rfl, hordered, hreadable⟩

theorem read_spec (h : b.Ordered) (len : UInt64) :
    ((b.readBytes len).1.map Answer.copied).map Answer.seen =
        (ByteQueue.read b.readable len.toNat).1 ∧
      (b.readBytes len).2.Ordered ∧
      (b.readBytes len).2.readable = (ByteQueue.read b.readable len.toNat).2 := by
  unfold ByteQueue.read
  split_ifs with hlen
  · obtain ⟨b', heq, hordered, hreadable⟩ := readBytes_of_le h hlen
    rw [heq]
    exact ⟨rfl, hordered, hreadable⟩
  · rw [readBytes_of_lt h (Nat.lt_of_not_le hlen)]
    exact ⟨rfl, h, rfl⟩

/-- **One call on a buffer** does to its readable bytes what it does to a queue. -/
theorem run_spec (h : b.Ordered) {op : Op} (hsize : b.asks op < 2 ^ 62) :
    (b.run true op).1.map Answer.seen = (ByteQueue.run b.readable op).1 ∧
      (b.run true op).2.Ordered ∧
      (b.run true op).2.readable = (ByteQueue.run b.readable op).2 := by
  have hwrite : ∀ src : Bytes, b.writerIndex.toNat + src.length < 2 ^ 62 →
      ((b.writeBytes true src).map (Outcome.map fun _ => Answer.nothing) id).1.map Answer.seen =
          .returned .nothing ∧
        (b.writeBytes true src).2.Ordered ∧
        (b.writeBytes true src).2.readable = b.readable ++ src := by
    intro src hsrc
    obtain ⟨hreturned, hspec⟩ := write_spec h hsrc
    rw [Prod.map_fst, hreturned]
    exact ⟨rfl, hspec⟩
  cases op with
  | writeByte x => exact hwrite [x] hsize
  | writeBytes src => exact hwrite src hsize
  | writeString s => exact hwrite s hsize
  | readByte => exact read_spec h 1
  | readBytes len => exact read_spec h len
  | readString len => exact read_spec h len
  | readStringView len => exact read_spec h len
  | discard len =>
    obtain ⟨hordered, hreadable⟩ := readable_discard h len
    refine ⟨rfl, hordered, hreadable.trans ?_⟩
    rw [ByteQueue.run, ← List.drop_eq_drop_min]
  | clear => exact ⟨rfl, readable_clear b⟩
  | reset => exact ⟨rfl, readable_clear b⟩
  | shrink => exact ⟨rfl, readable_shrink h true⟩
  | reserve n =>
    obtain ⟨b', heq, hordered, hreadable⟩ := readable_reserve h n
    rw [run, heq]
    exact ⟨rfl, hordered, hreadable⟩
  | ensureWritable len =>
    have hlarge : b.writerIndex.toNat + len.toNat < 2 ^ 62 := hsize
    have hfits : b.writerIndex.toNat + len.toNat < 2 ^ 64 := by omega
    obtain ⟨hnot, _⟩ | ⟨_, ⟨hno, _⟩ | ⟨b', heq, hordered, hreadable, _⟩⟩ :=
      ensureWritable_spec h true hfits
    · exact absurd (expandable_of_lt hlarge) hnot
    · cases hno
    · rw [run, heq]
      exact ⟨rfl, hordered, hreadable⟩

theorem equal_eq {other : RawBuf} (h : b.Ordered) (h' : other.Ordered) :
    b.equal other = decide (b.readable = other.readable) := by
  unfold equal
  split_ifs with hcount
  · have hne : b.readable ≠ other.readable := fun heq => hcount <| by
      rw [← UInt64.toNat_inj, ← length_readable h, ← length_readable h', heq]
    exact (decide_eq_false hne).symm
  · rfl

/-! ### Failing -/

theorem expand_of_failed (granted : Bool) (b : RawBuf) (n : UInt64)
    (h : (b.expand granted n).1 ≠ .returned ()) : (b.expand granted n).2 = b := by
  cases granted with
  | false => rfl
  | true => exact absurd rfl h

theorem reserve_of_failed (granted : Bool) (b : RawBuf) (n : UInt64)
    (h : (b.reserve granted n).1 ≠ .returned ()) : (b.reserve granted n).2 = b := by
  unfold reserve at h ⊢
  split_ifs at h ⊢
  · exact expand_of_failed granted b n h
  · rfl

theorem ensureWritable_of_failed (granted : Bool) (b : RawBuf) (len : UInt64)
    (h : (b.ensureWritable granted len).1 ≠ .returned ()) :
    (b.ensureWritable granted len).2 = b := by
  unfold ensureWritable at h ⊢
  split_ifs at h ⊢
  · split at h
    next size _ => exact expand_of_failed granted b size h
    next => rfl
  · rfl

theorem writeBytes_of_failed (granted : Bool) (b : RawBuf) (src : Bytes)
    (h : (b.writeBytes granted src).1 ≠ .returned ()) : (b.writeBytes granted src).2 = b := by
  have hroom := ensureWritable_of_failed granted b (UInt64.ofNat src.length)
  unfold writeBytes at h ⊢
  split
  next b' heq =>
    rw [heq] at h
    exact absurd rfl h
  next failed b' hfailed heq =>
    rw [heq] at hroom
    exact hroom fun hreturned => hfailed () hreturned

theorem readBytes_of_failed (b : RawBuf) (len : UInt64)
    (h : ∀ what, (b.readBytes len).1 ≠ .returned what) : (b.readBytes len).2 = b := by
  unfold readBytes at h ⊢
  split_ifs at h ⊢
  · rfl
  · exact absurd rfl (h _)

/-- **A call that does not return** leaves its buffer as it is. -/
theorem run_of_failed (granted : Bool) (b : RawBuf) (op : Op)
    (h : ∀ answer, (b.run granted op).1 ≠ .returned answer) : (b.run granted op).2 = b := by
  have hvoid : ∀ result : Outcome Unit × RawBuf,
      (∀ answer, (result.map (Outcome.map fun _ => Answer.nothing) id).1 ≠ .returned answer) →
        result.1 ≠ .returned () := by
    rintro ⟨outcome, b'⟩ hne rfl
    exact hne _ rfl
  have hread : ∀ result : Outcome Copied × RawBuf,
      (∀ answer, (result.map (Outcome.map Answer.copied) id).1 ≠ .returned answer) →
        ∀ what, result.1 ≠ .returned what := by
    rintro ⟨outcome, b'⟩ hne what rfl
    exact hne _ rfl
  cases op with
  | writeByte x => exact writeBytes_of_failed granted b [x] (hvoid _ h)
  | writeBytes src => exact writeBytes_of_failed granted b src (hvoid _ h)
  | writeString s => exact writeBytes_of_failed granted b s (hvoid _ h)
  | readByte => exact readBytes_of_failed b 1 (hread _ h)
  | readBytes len => exact readBytes_of_failed b len (hread _ h)
  | readString len => exact readBytes_of_failed b len (hread _ h)
  | readStringView len => exact readBytes_of_failed b len (hread _ h)
  | reserve n => exact reserve_of_failed granted b n (hvoid _ h)
  | ensureWritable len => exact ensureWritable_of_failed granted b len (hvoid _ h)
  | discard | clear | reset | shrink => exact absurd rfl (h _)

/-! ### Any number of buffers -/

/-- Each buffer stands for its queue. -/
def StandsFor (s : ℕ → RawBuf) (q : ℕ → Bytes) : Prop :=
  ∀ i, (s i).Ordered ∧ (s i).readable = q i

variable {s : ℕ → RawBuf} {q : ℕ → Bytes}

theorem StandsFor.update (h : StandsFor s q) (i : ℕ) {b : RawBuf} {bytes : Bytes}
    (hb : b.Ordered ∧ b.readable = bytes) :
    StandsFor (Function.update s i b) (Function.update q i bytes) := by
  intro j
  by_cases hj : j = i
  · subst hj
    simpa using hb
  · rw [Function.update_of_ne hj, Function.update_of_ne hj]
    exact h j

theorem readable_empty : empty.Ordered ∧ empty.readable = [] :=
  ⟨ordered_empty, rfl⟩

/-- **One call on the buffers**. -/
theorem perform_spec (h : StandsFor s q) {c : Call} (hsize : sizeOf s c < 2 ^ 62) :
    (perform true s c).1.map Answer.seen = (ByteQueue.perform q c).1 ∧
      StandsFor (perform true s c).2 (ByteQueue.perform q c).2 := by
  cases c with
  | on i op =>
    obtain ⟨hanswer, hordered, hreadable⟩ := run_spec (h i).1 hsize
    rw [(h i).2] at hanswer hreadable
    exact ⟨hanswer, h.update i ⟨hordered, hreadable⟩⟩
  | make i => exact ⟨rfl, h.update i readable_empty⟩
  | ofCapacity i n => exact ⟨rfl, h.update i (readable_ofCapacity n)⟩
  | ofBytes i bytes fits => exact ⟨rfl, h.update i (readable_ofBytes fits)⟩
  | copy i j =>
    obtain ⟨hordered, hreadable⟩ := readable_copyOf (h j).1
    exact ⟨rfl, h.update i ⟨hordered, hreadable.trans (h j).2⟩⟩
  | assign i j =>
    obtain ⟨hordered, hreadable⟩ := readable_copyOf (h j).1
    refine ⟨rfl, ?_⟩
    simp only [perform, ByteQueue.perform]
    split_ifs with hij
    · exact h.update i ⟨hordered, hreadable.trans (h j).2⟩
    · rw [not_not.mp hij, Function.update_eq_self]
      exact h
  | move i j => exact ⟨rfl, (h.update j readable_empty).update i (h j)⟩
  | moveAssign i j =>
    refine ⟨rfl, ?_⟩
    simp only [perform, ByteQueue.perform]
    split_ifs with hij
    · exact (h.update j readable_empty).update i (h j)
    · rw [not_not.mp hij, Function.update_idem, Function.update_eq_self]
      exact h
  | swap i j => exact ⟨rfl, (h.update i (h j)).update j (h i)⟩
  | equal i j =>
    refine ⟨?_, h⟩
    simp only [perform, ByteQueue.perform, equal_eq (h i).1 (h j).1, (h i).2, (h j).2]
    rfl

theorem perform_of_failed (granted : Bool) (s : ℕ → RawBuf) (c : Call)
    (h : ∀ answer, (perform granted s c).1 ≠ .returned answer) : (perform granted s c).2 = s := by
  cases c with
  | on i op =>
    change Function.update s i ((s i).run granted op).2 = s
    rw [run_of_failed granted (s i) op h, Function.update_eq_self]
  | make | ofCapacity | ofBytes | copy | assign | move | moveAssign | swap | equal =>
    exact absurd rfl (h _)

open Transcript Ledger

/-- A call, with the bytes it gives back. -/
def performSeen (s : ℕ → RawBuf) (c : Call) : Outcome ByteQueue.Answer × (ℕ → RawBuf) :=
  (perform true s c).map (Outcome.map Answer.seen) id

theorem performSeen_spec {s : ℕ → RawBuf} {q : ℕ → Bytes} {c : Call} (h : StandsFor s q)
    (hsize : sizeOf s c < 2 ^ 62) :
    (performSeen s c).1 = (ByteQueue.perform q c).1 ∧
      StandsFor (performSeen s c).2 (ByteQueue.perform q c).2 :=
  perform_spec h hsize

/-- **The run**: the buffers stand for the queues all along. -/
theorem StandsFor.foldl {s : ℕ → RawBuf} {q : ℕ → Bytes} (h : StandsFor s q) {calls : List Call}
    (hsizes : Along (next performSeen) (fun s c => sizeOf s c < 2 ^ 62) s calls) :
    StandsFor (calls.foldl (next performSeen) s) (calls.foldl (next ByteQueue.perform) q) := by
  induction calls generalizing s q with
  | nil => exact h
  | cons c calls ih => exact ih (performSeen_spec h hsizes.1).2 hsizes.2

/-- **A byte buffer is a queue.** In every run of calls on any number of buffers, in which no size
comes to `2 ^ 62`, the buffers answer as queues do, and at every moment each holds what its queue
does, its indices in order. A call that throws changes nothing. -/
theorem queue_correct (calls : List Call)
    (hsizes : Along (next performSeen) (fun s c => sizeOf s c < 2 ^ 62) (fun _ => empty) calls) :
    transcript performSeen (fun _ => empty) calls =
        transcript ByteQueue.perform (fun _ => []) calls ∧
      (∀ done, done <+: calls → ∀ i,
        let b := done.foldl (next performSeen) (fun _ => empty) i
        b.readable = done.foldl (next ByteQueue.perform) (fun _ => []) i ∧
          b.readerIndex ≤ b.writerIndex ∧ b.writerIndex ≤ b.capacity) ∧
      ∀ done c, done ++ [c] <+: calls →
        let s := done.foldl (next performSeen) fun _ => empty
        (performSeen s c).1 = .outOfRange → (performSeen s c).2 = s := by
  have hstart : StandsFor (fun _ => empty) fun _ => [] := fun _ => readable_empty
  have hstep : ∀ (s : ℕ → RawBuf) (q : ℕ → Bytes) (c : Call), StandsFor s q →
      sizeOf s c < 2 ^ 62 → (performSeen s c).1 = (ByteQueue.perform q c).1 ∧
        StandsFor (performSeen s c).2 (ByteQueue.perform q c).2 :=
    fun _ _ _ => performSeen_spec
  refine ⟨transcript_eq StandsFor hstep hstart hsizes, ?_, ?_⟩
  · rintro done ⟨later, rfl⟩ i
    have hstands := hstart.foldl ((along_append _ done later).mp hsizes).1
    exact ⟨(hstands i).2, (ordered_iff _).mp (hstands i).1⟩
  · intro done c _ s hthrows
    apply perform_of_failed
    intro answer hreturned
    have hseen : (performSeen s c).1 = .returned answer.seen :=
      congrArg (Outcome.map Answer.seen) hreturned
    rw [hthrows] at hseen
    cases hseen

/-- Two buffers: a copy is read while the original is moved away. -/
theorem queue_correct_copy :
    let calls : List Call := [.on 0 (.writeString [1, 2, 3]), .on 0 (.discard 1), .copy 1 0,
      .on 0 .shrink, .moveAssign 2 0, .equal 1 2, .on 1 (.readBytes 3), .on 1 .readByte,
      .on 0 .readByte]
    transcript performSeen (fun _ => empty) calls =
        transcript ByteQueue.perform (fun _ => []) calls ∧
      transcript ByteQueue.perform (fun _ => []) calls =
        [.returned .nothing, .returned .nothing, .returned .nothing, .returned .nothing,
          .returned .nothing, .returned (.yes true), .outOfRange, .returned (.bytes [2]),
          .outOfRange] := by
  intro calls
  have hsizes :
      Along (next performSeen) (fun s c => sizeOf s c < 2 ^ 62) (fun _ => empty) calls := by
    decide +kernel
  exact ⟨(queue_correct calls hsizes).1, by decide +kernel⟩

end RawBuf

end XNetty
