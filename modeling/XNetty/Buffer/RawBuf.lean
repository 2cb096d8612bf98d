import XNetty.Buffer.ByteBuf

/-!
# Byte buffers in machine arithmetic

`ByteBuf` as it stands: its indices are 64-bit words that wrap around, nothing ties them to its
storage, and its calls may throw or never come back.

## Main definitions

* `RawBuf` — the storage and the indices.
* `Outcome` — how a call ends.
* `RawBuf.ensureWritable`, `RawBuf.readBytes`, … — the operations.
-/

namespace XNetty

/-- The block at `data_`, as long as `capacity_` says, and the indices. -/
structure RawBuf where
  data : Bytes := []
  readerIndex : UInt64 := 0
  writerIndex : UInt64 := 0
  fits : data.length < 2 ^ 64 := by decide
  deriving DecidableEq

/-- How a call ends. -/
inductive Outcome (α : Type) where
  | returned (value : α)
  | outOfRange
  | badAlloc
  /-- It does not. -/
  | never
  deriving DecidableEq

/-- What a call has copied out of the storage: from where, how much, and what. -/
structure Copied where
  index : UInt64
  len : UInt64
  bytes : Bytes
  deriving DecidableEq

namespace RawBuf

/-- `capacity_` -/
def capacity (b : RawBuf) : UInt64 := UInt64.ofNat b.data.length

@[simp] theorem toNat_capacity (b : RawBuf) : b.capacity.toNat = b.data.length :=
  UInt64.toNat_ofNat_of_lt' b.fits

/-- A sum that does not wrap. -/
theorem toNat_add_of_lt {x y : UInt64} (h : x.toNat + y.toNat < 2 ^ 64) :
    (x + y).toNat = x.toNat + y.toNat := by
  rw [UInt64.toNat_add, Nat.mod_eq_of_lt h]

def readableBytes (b : RawBuf) : UInt64 := b.writerIndex - b.readerIndex

/-! ## Memory -/

/-- `len` bytes of the storage from `index` on. -/
def window (b : RawBuf) (index len : UInt64) : Bytes := (b.data.drop index.toNat).take len.toNat

/-- `readableData()`, `readableBytes()` of it. -/
def readable (b : RawBuf) : Bytes := b.window b.readerIndex b.readableBytes

def copied (b : RawBuf) (index len : UInt64) : Copied := ⟨index, len, b.window index len⟩

/-- `memcpy` or `memmove` of `src` to the storage at `index`. What would be written behind the
storage is left out. -/
def store (b : RawBuf) (index : UInt64) (src : Bytes) : RawBuf where
  data := (b.data.take index.toNat ++ src ++
    b.data.drop (index.toNat + src.length)).take b.data.length
  readerIndex := b.readerIndex
  writerIndex := b.writerIndex
  fits := (List.length_take_le _ _).trans_lt b.fits

/-- `realloc`: the front of the block stays. -/
def realloc (b : RawBuf) (size : UInt64) : RawBuf where
  data := b.data.take size.toNat ++ List.replicate (size.toNat - b.data.length) 0
  readerIndex := b.readerIndex
  writerIndex := b.writerIndex
  fits := by
    have hsize := size.toNat_lt
    rw [List.length_append, List.length_take, List.length_replicate]
    omega

@[simp] theorem length_data_realloc (b : RawBuf) (size : UInt64) :
    (b.realloc size).data.length = size.toNat := by
  simp only [realloc, List.length_append, List.length_take, List.length_replicate]
  omega

/-! ## Construction -/

/-- `ByteBuf()` -/
def empty : RawBuf := {}

/-- `ByteBuf(size_t initialCapacity)`, also `allocate`. -/
def ofCapacity (initialCapacity : UInt64) : RawBuf where
  data := List.replicate initialCapacity.toNat 0
  readerIndex := 0
  writerIndex := 0
  fits := by
    rw [List.length_replicate]
    exact initialCapacity.toNat_lt

/-- `ByteBuf(const uint8_t *data, size_t len)`, also `wrap` and `copyOf`. -/
def ofBytes (bytes : Bytes) (h : bytes.length < 2 ^ 64) : RawBuf where
  data := bytes
  readerIndex := 0
  writerIndex := UInt64.ofNat bytes.length
  fits := h

/-- `ByteBuf(const ByteBuf &other)`: only the storage up to the writer index is copied. -/
def copyOf (other : RawBuf) : RawBuf :=
  if other.capacity > 0 then
    ({ ofCapacity other.capacity with
      readerIndex := other.readerIndex
      writerIndex := other.writerIndex } : RawBuf).store 0 (other.window 0 other.writerIndex)
  else { readerIndex := other.readerIndex, writerIndex := other.writerIndex }

/-! ## Growth -/

/-- `while (newCap < need) newCap *= 2`, for as many turns. -/
def grow (need : UInt64) : ℕ → UInt64 → Option UInt64
  | 0, _ => none
  | turns + 1, newCap => if newCap < need then grow need turns (newCap * 2) else some newCap

/-- `expand`; `granted` tells whether `realloc` finds the memory. -/
def expand (granted : Bool) (b : RawBuf) (newCapacity : UInt64) : Outcome Unit × RawBuf :=
  if granted then (.returned (), b.realloc newCapacity) else (.badAlloc, b)

def reserve (granted : Bool) (b : RawBuf) (newCapacity : UInt64) : Outcome Unit × RawBuf :=
  if newCapacity > b.capacity then b.expand granted newCapacity else (.returned (), b)

/-- The capacity that doubling starts from. -/
def base (b : RawBuf) : UInt64 := if b.capacity * 2 = 0 then 64 else b.capacity * 2

/-- Doubling a word 64 times leaves nothing of it, so a loop that goes on for longer goes on for
ever. -/
def ensureWritable (granted : Bool) (b : RawBuf) (len : UInt64) : Outcome Unit × RawBuf :=
  if b.writerIndex + len > b.capacity then
    match grow (b.writerIndex + len) 65 b.base with
    | some newCap => b.expand granted newCap
    | none => (.never, b)
  else (.returned (), b)

/-! ## Writing -/

/-- `writeBytes(src, src.size())`, where `src` lies outside the storage. -/
def writeBytes (granted : Bool) (b : RawBuf) (src : Bytes) : Outcome Unit × RawBuf :=
  match b.ensureWritable granted (UInt64.ofNat src.length) with
  | (.returned _, b) =>
    (.returned (), { b.store b.writerIndex src with
      writerIndex := b.writerIndex + UInt64.ofNat src.length })
  | (failed, b) => (failed, b)

def writeByte (granted : Bool) (b : RawBuf) (x : UInt8) : Outcome Unit × RawBuf :=
  b.writeBytes granted [x]

def writeString (granted : Bool) (b : RawBuf) (s : Bytes) : Outcome Unit × RawBuf :=
  b.writeBytes granted s

/-! ## Reading -/

def readBytes (b : RawBuf) (len : UInt64) : Outcome Copied × RawBuf :=
  if b.readableBytes < len then (.outOfRange, b)
  else (.returned (b.copied b.readerIndex len), { b with readerIndex := b.readerIndex + len })

def readByte (b : RawBuf) : Outcome Copied × RawBuf := b.readBytes 1

def readStringView (b : RawBuf) (len : UInt64) : Outcome Copied × RawBuf := b.readBytes len

def readString (b : RawBuf) (len : UInt64) : Outcome Copied × RawBuf := b.readBytes len

/-- `slice`, with the buffer that it returns. -/
def slice (b : RawBuf) (index len : UInt64) : Outcome (Copied × RawBuf) :=
  if index + len > b.writerIndex then .outOfRange
  else
    .returned (b.copied index len,
      { (ofCapacity len).store 0 (b.window index len) with writerIndex := len })

def equal (b other : RawBuf) : Bool :=
  if b.readableBytes ≠ other.readableBytes then false else b.readable = other.readable

/-! ## Indices -/

def setReaderIndex (b : RawBuf) (index : UInt64) : Outcome Unit × RawBuf :=
  if index > b.writerIndex then (.outOfRange, b)
  else (.returned (), { b with readerIndex := index })

def setWriterIndex (b : RawBuf) (index : UInt64) : Outcome Unit × RawBuf :=
  if index > b.capacity then (.outOfRange, b)
  else (.returned (), { b with writerIndex := index })

def clear (b : RawBuf) : RawBuf := { b with readerIndex := 0, writerIndex := 0 }

def reset (b : RawBuf) : RawBuf := b.clear

def discard (b : RawBuf) (len : UInt64) : RawBuf :=
  if len ≥ b.readableBytes then { b with readerIndex := b.writerIndex }
  else { b with readerIndex := b.readerIndex + len }

/-! ## Giving memory back -/

/-- What is readable is moved to the front. -/
def compact (b : RawBuf) : RawBuf :=
  if b.readerIndex > 0 then
    { b.store 0 b.readable with readerIndex := 0, writerIndex := b.readableBytes }
  else b

def shrink (granted : Bool) (b : RawBuf) : RawBuf :=
  let readable := b.readableBytes
  let waste := b.capacity - readable
  if waste > 1024 ∧ waste > readable * 2 ∧ granted then b.compact.realloc (readable + 64)
  else b.compact

def trim (granted : Bool) (b : RawBuf) (maxCap : UInt64) : RawBuf :=
  if b.capacity > maxCap ∧ granted then
    { b.realloc maxCap with readerIndex := 0, writerIndex := min b.readableBytes maxCap }
  else b

/-! ## The window between the indices -/

/-- `readerIndex ≤ writerIndex ≤ capacity` -/
structure Ordered (b : RawBuf) : Prop where
  reader_le : b.readerIndex.toNat ≤ b.writerIndex.toNat
  writer_le : b.writerIndex.toNat ≤ b.data.length

theorem ordered_iff (b : RawBuf) :
    b.Ordered ↔ b.readerIndex ≤ b.writerIndex ∧ b.writerIndex ≤ b.capacity := by
  rw [UInt64.le_iff_toNat_le, UInt64.le_iff_toNat_le, toNat_capacity]
  exact ⟨fun h => ⟨h.reader_le, h.writer_le⟩, fun h => ⟨h.1, h.2⟩⟩

theorem ordered_empty : empty.Ordered := ⟨le_rfl, le_rfl⟩

variable {b : RawBuf}

theorem toNat_readableBytes (h : b.Ordered) :
    b.readableBytes.toNat = b.writerIndex.toNat - b.readerIndex.toNat :=
  UInt64.toNat_sub_of_le _ _ (UInt64.le_iff_toNat_le.mpr h.reader_le)

theorem readable_eq (h : b.Ordered) :
    b.readable = (b.data.take b.writerIndex.toNat).drop b.readerIndex.toNat := by
  rw [readable, window, toNat_readableBytes h, List.drop_take]

theorem length_readable (h : b.Ordered) : b.readable.length = b.readableBytes.toNat := by
  have hr := h.reader_le
  have hw := h.writer_le
  rw [readable_eq h, toNat_readableBytes h, List.length_drop, List.length_take]
  omega

/-- What is readable depends on the storage up to the writer index. -/
theorem readable_congr {b' : RawBuf} (h : b.Ordered) (hreader : b'.readerIndex = b.readerIndex)
    (hwriter : b'.writerIndex = b.writerIndex) (hw : b.writerIndex.toNat ≤ b'.data.length)
    (hdata : b'.data.take b.writerIndex.toNat = b.data.take b.writerIndex.toNat) :
    b'.Ordered ∧ b'.readable = b.readable := by
  have h' : b'.Ordered := ⟨by rw [hreader, hwriter]; exact h.reader_le, by rw [hwriter]; exact hw⟩
  rw [readable_eq h', readable_eq h, hreader, hwriter, hdata]
  exact ⟨h', rfl⟩

/-- Storage that still holds all that was written keeps what is readable. -/
theorem readable_realloc (h : b.Ordered) {size : UInt64}
    (hsize : b.writerIndex.toNat ≤ size.toNat) :
    (b.realloc size).Ordered ∧ (b.realloc size).readable = b.readable := by
  have hw := h.writer_le
  refine readable_congr h rfl rfl (by simpa using hsize) ?_
  have hlength : b.writerIndex.toNat ≤ (b.data.take size.toNat).length := by
    rw [List.length_take]
    omega
  rw [realloc, List.take_append_of_le_length hlength, List.take_take, min_eq_left hsize]

/-! ## Growth -/

theorem grow_eq_some {need newCap : UInt64} {turns : ℕ} {c : UInt64}
    (h : grow need turns c = some newCap) : need ≤ newCap := by
  induction turns generalizing c with
  | zero => cases h
  | succ turns ih =>
    rw [grow] at h
    split_ifs at h with hlt
    · exact ih h
    · cases h
      exact UInt64.not_lt.mp hlt

/-- The loop ends if the doubled word ever gets there. -/
theorem grow_isSome_iff (need c : UInt64) (turns : ℕ) :
    (grow need turns c).isSome ↔ ∃ k < turns, need.toNat ≤ c.toNat * 2 ^ k % 2 ^ 64 := by
  induction turns generalizing c with
  | zero => simp [grow]
  | succ turns ih =>
    have hstep : ∀ k, (c * 2).toNat * 2 ^ k % 2 ^ 64 = c.toNat * 2 ^ (k + 1) % 2 ^ 64 := by
      intro k
      rw [UInt64.toNat_mul, Nat.mod_mul_mod, pow_succ' 2 k, ← mul_assoc]
      rfl
    have hfirst : c.toNat * 2 ^ 0 % 2 ^ 64 = c.toNat := by
      rw [pow_zero, mul_one, Nat.mod_eq_of_lt c.toNat_lt]
    rw [grow]
    split_ifs with hlt
    · rw [ih]
      simp only [hstep]
      have hno : ¬need.toNat ≤ c.toNat := Nat.not_le.mpr (UInt64.lt_iff_toNat_lt.mp hlt)
      constructor
      · rintro ⟨k, hk, hneed⟩
        exact ⟨k + 1, by omega, hneed⟩
      · rintro ⟨_ | k, hk, hneed⟩
        · exact absurd (hfirst ▸ hneed) hno
        · exact ⟨k, by omega, hneed⟩
    · have hyes : need.toNat ≤ c.toNat := UInt64.le_iff_toNat_le.mp (UInt64.not_lt.mp hlt)
      exact iff_of_true rfl ⟨0, by omega, by rwa [hfirst]⟩

/-- There is room for `len` bytes more, or doubling makes room for them. -/
def Expandable (b : RawBuf) (len : UInt64) : Prop :=
  b.writerIndex.toNat + len.toNat ≤ b.data.length ∨
    ∃ k, b.writerIndex.toNat + len.toNat ≤ b.base.toNat * 2 ^ k % 2 ^ 64

/-- 64 turns double every word to zero. -/
theorem exists_turn_iff (need c : UInt64) :
    (∃ k < 65, need.toNat ≤ c.toNat * 2 ^ k % 2 ^ 64) ↔
      ∃ k, need.toNat ≤ c.toNat * 2 ^ k % 2 ^ 64 := by
  constructor
  · rintro ⟨k, _, hk⟩
    exact ⟨k, hk⟩
  · rintro ⟨k, hk⟩
    by_cases hlt : k < 65
    · exact ⟨k, hlt, hk⟩
    · obtain ⟨j, rfl⟩ : ∃ j, k = 64 + j := ⟨k - 64, by omega⟩
      have hzero : c.toNat * 2 ^ (64 + j) % 2 ^ 64 = 0 := by
        rw [pow_add, mul_left_comm, Nat.mul_mod_right]
      exact ⟨0, by omega, by omega⟩

/-- Doubling makes room for every size that leaves two bits of a word unused. -/
theorem expandable_of_lt {len : UInt64} (h : b.writerIndex.toNat + len.toNat < 2 ^ 62) :
    b.Expandable len := by
  by_cases hroom : b.writerIndex.toNat + len.toNat ≤ b.data.length
  · exact .inl hroom
  right
  have hdouble : (b.capacity * 2).toNat = b.data.length * 2 := by
    have htwo : (2 : UInt64).toNat = 2 := rfl
    rw [UInt64.toNat_mul, toNat_capacity, htwo, Nat.mod_eq_of_lt]
    omega
  obtain ⟨hpos, hbase⟩ : 0 < b.base.toNat ∧ b.base.toNat < 2 ^ 63 := by
    unfold base
    split_ifs with hzero
    · decide
    · rw [← UInt64.toNat_inj, hdouble] at hzero
      exact ⟨by rw [hdouble]; exact Nat.pos_of_ne_zero hzero, by omega⟩
  generalize b.base.toNat = c at hpos hbase
  generalize b.writerIndex.toNat + len.toNat = need at h
  have hex : ∃ k, need ≤ c * 2 ^ k := ⟨62, by nlinarith [Nat.mul_le_mul_right (2 ^ 62) hpos]⟩
  -- The first turn that is enough doubles a number below `need`.
  have hfirst : c * 2 ^ Nat.find hex < 2 ^ 64 := by
    cases hk : Nat.find hex with
    | zero => omega
    | succ k =>
      have hless : c * 2 ^ k < need := Nat.not_le.mp (Nat.find_min hex (hk ▸ Nat.lt_succ_self k))
      rw [pow_succ, ← mul_assoc]
      omega
  exact ⟨Nat.find hex, by rw [Nat.mod_eq_of_lt hfirst]; exact Nat.find_spec hex⟩

/-- **`ensureWritable`**, for a size that does not wrap around: it finds room, or asks for more
storage, or doubles for ever. -/
theorem ensureWritable_cases (granted : Bool) {len : UInt64}
    (hsize : b.writerIndex.toNat + len.toNat < 2 ^ 64) :
    (¬b.Expandable len ∧ b.ensureWritable granted len = (.never, b)) ∨
      b.Expandable len ∧
        ((b.writerIndex.toNat + len.toNat ≤ b.data.length ∧
            b.ensureWritable granted len = (.returned (), b)) ∨
          ∃ size : UInt64, b.writerIndex.toNat + len.toNat ≤ size.toNat ∧
            b.data.length < size.toNat ∧
            b.ensureWritable granted len = b.expand granted size) := by
  have hneed : (b.writerIndex + len).toNat = b.writerIndex.toNat + len.toNat :=
    toNat_add_of_lt hsize
  have hgt : b.writerIndex + len > b.capacity ↔
      b.data.length < b.writerIndex.toNat + len.toNat := by
    rw [gt_iff_lt, UInt64.lt_iff_toNat_lt, toNat_capacity, hneed]
  by_cases hroom : b.writerIndex.toNat + len.toNat ≤ b.data.length
  · refine .inr ⟨.inl hroom, .inl ⟨hroom, ?_⟩⟩
    rw [ensureWritable, if_neg (by rw [hgt]; omega)]
  · have hends := grow_isSome_iff (b.writerIndex + len) b.base 65
    rw [exists_turn_iff, hneed] at hends
    rw [ensureWritable, if_pos (hgt.mpr (by omega))]
    cases hgrow : grow (b.writerIndex + len) 65 b.base with
    | some size =>
      have hle := UInt64.le_iff_toNat_le.mp (grow_eq_some hgrow)
      rw [hneed] at hle
      exact .inr ⟨.inr (hends.mp (by rw [hgrow]; rfl)), .inr ⟨size, hle, by omega, rfl⟩⟩
    | none =>
      refine .inl ⟨?_, rfl⟩
      rintro (h | h)
      · exact hroom h
      · rw [← hends, hgrow] at h
        cases h

end RawBuf

end XNetty
