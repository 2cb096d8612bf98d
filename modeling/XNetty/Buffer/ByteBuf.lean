import Mathlib.Tactic

/-!
# Byte buffers

`ByteBuf` is a block of storage with a reader and a writer index. The bytes between
the two indices are readable; every operation is described by what it does to them.

Sizes are natural numbers and allocation succeeds. Storage that the program never
wrote reads as zero.

## Main definitions

* `ByteBuf.readable` — the queue of bytes a buffer stands for.
* `ByteBuf.writeFromSelf` — writing from a pointer into the buffer's own storage.
-/

namespace XNetty

abbrev Bytes := List UInt8

/-- The bytes of an ASCII literal. -/
def ascii (s : String) : Bytes := s.toList.map fun c => UInt8.ofNat c.toNat

/-- Storage with `readerIndex ≤ writerIndex ≤ capacity`. -/
structure ByteBuf where
  data : Bytes
  readerIndex : ℕ
  writerIndex : ℕ
  reader_le : readerIndex ≤ writerIndex
  writer_le : writerIndex ≤ data.length
  deriving DecidableEq

namespace ByteBuf

def capacity (b : ByteBuf) : ℕ := b.data.length

def readableBytes (b : ByteBuf) : ℕ := b.writerIndex - b.readerIndex

/-- The bytes at `readableData()`, `readableBytes()` of them. -/
def readable (b : ByteBuf) : Bytes := (b.data.take b.writerIndex).drop b.readerIndex

@[simp] theorem length_readable (b : ByteBuf) : b.readable.length = b.readableBytes := by
  have := b.writer_le
  simp [readable, readableBytes]
  omega

/-! ## Construction -/

/-- The default constructor. -/
def empty : ByteBuf := ⟨[], 0, 0, le_rfl, le_rfl⟩

/-- `ByteBuf(size_t initialCapacity)`. -/
def ofCapacity (initialCapacity : ℕ) : ByteBuf :=
  ⟨List.replicate initialCapacity 0, 0, 0, le_rfl, Nat.zero_le _⟩

/-- `ByteBuf(const uint8_t *data, size_t len)`. -/
def copyOf (bytes : Bytes) : ByteBuf := ⟨bytes, 0, bytes.length, Nat.zero_le _, le_rfl⟩

@[simp] theorem readable_empty : empty.readable = [] := rfl
@[simp] theorem readable_copyOf (bytes : Bytes) : (copyOf bytes).readable = bytes := by
  simp [readable, copyOf]
@[simp] theorem readable_ofCapacity (n : ℕ) : (ofCapacity n).readable = [] := by
  simp [readable, ofCapacity]

/-! ## Growth -/

/-- `while (newCap < need) newCap *= 2`. -/
def growCapacity (need : ℕ) : ℕ → ℕ → ℕ
  | 0, newCap => newCap
  | fuel + 1, newCap => if newCap < need then growCapacity need fuel (newCap * 2) else newCap

theorem le_growCapacity {need fuel newCap : ℕ} (hpos : 0 < newCap)
    (h : need ≤ newCap + fuel) : need ≤ growCapacity need fuel newCap := by
  induction fuel generalizing newCap with
  | zero => simpa [growCapacity] using h
  | succ fuel ih =>
    simp only [growCapacity]
    split
    · exact ih (by omega) (by omega)
    · omega

/-- `realloc` to a larger block. -/
def expand (b : ByteBuf) (newCapacity : ℕ) : ByteBuf where
  data := b.data ++ List.replicate (newCapacity - b.capacity) 0
  readerIndex := b.readerIndex
  writerIndex := b.writerIndex
  reader_le := b.reader_le
  writer_le := by have := b.writer_le; simp; omega

def ensureWritable (b : ByteBuf) (len : ℕ) : ByteBuf :=
  if b.writerIndex + len > b.capacity then
    let newCap := if b.capacity * 2 = 0 then 64 else b.capacity * 2
    b.expand (growCapacity (b.writerIndex + len) (b.writerIndex + len) newCap)
  else b

@[simp] theorem readerIndex_ensureWritable (b : ByteBuf) (len : ℕ) :
    (b.ensureWritable len).readerIndex = b.readerIndex := by
  unfold ensureWritable; split <;> rfl

@[simp] theorem writerIndex_ensureWritable (b : ByteBuf) (len : ℕ) :
    (b.ensureWritable len).writerIndex = b.writerIndex := by
  unfold ensureWritable; split <;> rfl

theorem take_data_ensureWritable (b : ByteBuf) (len : ℕ) :
    (b.ensureWritable len).data.take b.writerIndex = b.data.take b.writerIndex := by
  unfold ensureWritable
  split
  · exact List.take_append_of_le_length b.writer_le
  · rfl

theorem ensureWritable_room (b : ByteBuf) (len : ℕ) :
    b.writerIndex + len ≤ (b.ensureWritable len).data.length := by
  unfold ensureWritable
  split
  next h =>
    dsimp only
    generalize hc : (if b.capacity * 2 = 0 then 64 else b.capacity * 2) = newCap
    have hpos : 0 < newCap := by subst hc; split <;> omega
    have hgrow : b.writerIndex + len ≤
        growCapacity (b.writerIndex + len) (b.writerIndex + len) newCap :=
      le_growCapacity hpos (by omega)
    simp only [expand, List.length_append, List.length_replicate]
    unfold capacity
    omega
  next h => exact Nat.not_lt.mp h

/-! ## Writing -/

/-- `memcpy` of `src` to the writer index, which then moves behind it. -/
def copyIn (b : ByteBuf) (src : Bytes) (h : b.writerIndex + src.length ≤ b.data.length) :
    ByteBuf where
  data := b.data.take b.writerIndex ++ src ++ b.data.drop (b.writerIndex + src.length)
  readerIndex := b.readerIndex
  writerIndex := b.writerIndex + src.length
  reader_le := b.reader_le.trans (Nat.le_add_right _ _)
  writer_le := by simp; omega

/-- `writeBytes(src, len)` where `src` lies outside the buffer's storage. -/
def writeBytes (b : ByteBuf) (src : Bytes) : ByteBuf :=
  (b.ensureWritable src.length).copyIn src
    (by rw [writerIndex_ensureWritable]; exact b.ensureWritable_room src.length)

def writeByte (b : ByteBuf) (x : UInt8) : ByteBuf := b.writeBytes [x]

theorem readable_copyIn (b : ByteBuf) (src : Bytes)
    (h : b.writerIndex + src.length ≤ b.data.length) :
    (b.copyIn src h).readable = b.readable ++ src := by
  have h1 : (b.data.take b.writerIndex ++ src).length = b.writerIndex + src.length := by
    simp; omega
  simp only [readable, copyIn]
  rw [← h1, List.take_left, List.drop_append_of_le_length]
  simpa using ⟨b.reader_le, b.reader_le.trans b.writer_le⟩

@[simp] theorem readable_writeBytes (b : ByteBuf) (src : Bytes) :
    (b.writeBytes src).readable = b.readable ++ src := by
  rw [writeBytes, readable_copyIn]
  simp only [readable, writerIndex_ensureWritable, readerIndex_ensureWritable,
    take_data_ensureWritable]

@[simp] theorem readerIndex_writeBytes (b : ByteBuf) (src : Bytes) :
    (b.writeBytes src).readerIndex = b.readerIndex := b.readerIndex_ensureWritable _

@[simp] theorem readable_writeByte (b : ByteBuf) (x : UInt8) :
    (b.writeByte x).readable = b.readable ++ [x] := readable_writeBytes b [x]

/-- `writeBytes(data_.get() + offset, len)`: the source is the buffer's own storage.
`memcpy` is undefined on overlapping ranges, and so is reading the source after a
reallocation; both are `none`. -/
def writeFromSelf (b : ByteBuf) (offset len : ℕ) : Option ByteBuf :=
  if h : b.writerIndex + len ≤ b.capacity ∧ offset + len ≤ b.capacity ∧
      (len = 0 ∨ offset + len ≤ b.writerIndex ∨ b.writerIndex + len ≤ offset) then
    some (b.copyIn ((b.data.drop offset).take len) (by
      obtain ⟨h, h', -⟩ := h
      unfold capacity at h h'
      simp
      omega))
  else none

/-! ## Clearing and discarding -/

def clear (b : ByteBuf) : ByteBuf := ⟨b.data, 0, 0, le_rfl, Nat.zero_le _⟩

@[simp] theorem readable_clear (b : ByteBuf) : b.clear.readable = [] := by
  simp [readable, clear]
@[simp] theorem data_clear (b : ByteBuf) : b.clear.data = b.data := rfl
@[simp] theorem readerIndex_clear (b : ByteBuf) : b.clear.readerIndex = 0 := rfl
@[simp] theorem writerIndex_clear (b : ByteBuf) : b.clear.writerIndex = 0 := rfl

/-- Moving the last `len` readable bytes to the front works when they lie behind the first
`len` bytes of the storage. -/
theorem writeFromSelf_clear {b : ByteBuf} {offset len : ℕ} (h0 : b.readerIndex = 0)
    (hlen : offset + len = b.readableBytes) (hle : len ≤ offset) :
    ∃ b', b.clear.writeFromSelf offset len = some b' ∧
      b'.readable = b.readable.drop offset ∧ b'.readerIndex = 0 := by
  have hw := b.writer_le
  unfold readableBytes at hlen
  have hroom : b.clear.writerIndex + len ≤ b.clear.capacity ∧ offset + len ≤ b.clear.capacity ∧
      (len = 0 ∨ offset + len ≤ b.clear.writerIndex ∨ b.clear.writerIndex + len ≤ offset) := by
    simp only [capacity, writerIndex_clear, data_clear]
    omega
  refine ⟨_, dif_pos hroom, ?_, rfl⟩
  rw [readable_copyIn, readable_clear, List.nil_append, data_clear, readable, h0, List.drop_zero,
    List.drop_take]
  congr 1
  omega

theorem writeFromSelf_clear_overlap {b : ByteBuf} {offset len : ℕ} (hlt : offset < len) :
    b.clear.writeFromSelf offset len = none := by
  refine dif_neg fun h => ?_
  obtain ⟨-, -, h⟩ := h
  rw [writerIndex_clear] at h
  omega

def discard (b : ByteBuf) (len : ℕ) : ByteBuf :=
  if h : len ≥ b.readableBytes then
    ⟨b.data, b.writerIndex, b.writerIndex, le_rfl, b.writer_le⟩
  else
    ⟨b.data, b.readerIndex + len, b.writerIndex, by unfold readableBytes at h; omega, b.writer_le⟩

@[simp] theorem readable_discard (b : ByteBuf) (len : ℕ) :
    (b.discard len).readable = b.readable.drop len := by
  unfold discard
  split
  next h =>
    rw [List.drop_eq_nil_of_le (by simpa using h)]
    simp [readable]
  next h => simp [readable]

theorem readableBytes_discard (b : ByteBuf) (len : ℕ) :
    (b.discard len).readableBytes = b.readableBytes - len := by
  rw [← length_readable, readable_discard, List.length_drop, length_readable]

/-- `setReaderIndex(index)` on an index that does not throw. -/
def setReaderIndex (b : ByteBuf) (index : ℕ) (h : index ≤ b.writerIndex) : ByteBuf :=
  ⟨b.data, index, b.writerIndex, h, b.writer_le⟩

/-- Setting the reader index to where it is changes nothing. -/
theorem setReaderIndex_self {b : ByteBuf} {index : ℕ} (h : index ≤ b.writerIndex)
    (he : b.readerIndex = index) : b.setReaderIndex index h = b := by
  subst he
  rfl

theorem readable_eq_nil_iff (b : ByteBuf) : b.readable = [] ↔ b.readableBytes = 0 := by
  rw [← length_readable, List.length_eq_zero_iff]

end ByteBuf

end XNetty
