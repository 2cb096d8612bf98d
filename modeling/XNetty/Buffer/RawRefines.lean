import XNetty.Buffer.Bounds

/-!
# The buffer without overflow

As long as no size comes to `2 ^ 62`, a buffer in machine arithmetic is a `ByteBuf`, storage and
all: the two grow to the same capacities.

## Main definitions

* `RawBuf.toByteBuf` — the same buffer, its indices as numbers.
* `RawBuf.toByteBuf_writeBytes`, `RawBuf.toByteBuf_discard`, `RawBuf.toByteBuf_clear`.
-/

namespace XNetty

namespace RawBuf

/-- The same buffer, its indices as numbers. -/
def toByteBuf (b : RawBuf) (h : b.Ordered) : ByteBuf where
  data := b.data
  readerIndex := b.readerIndex.toNat
  writerIndex := b.writerIndex.toNat
  reader_le := h.reader_le
  writer_le := h.writer_le

variable {b : RawBuf}

@[simp] theorem readable_toByteBuf (h : b.Ordered) : (b.toByteBuf h).readable = b.readable :=
  (readable_eq h).symm

theorem toByteBuf_clear (h : b.Ordered) :
    b.clear.toByteBuf (readable_clear b).1 = (b.toByteBuf h).clear := rfl

theorem toByteBuf_discard (h : b.Ordered) (len : UInt64) :
    (b.discard len).toByteBuf (readable_discard h len).1 =
      (b.toByteBuf h).discard len.toNat := by
  have hr := h.reader_le
  have hwriter := b.writerIndex.toNat_lt
  have hcount : (b.toByteBuf h).readableBytes = b.readableBytes.toNat :=
    (toNat_readableBytes h).symm
  have hnumber := toNat_readableBytes h
  unfold ByteBuf.discard
  simp only [hcount, discard]
  by_cases hall : len ≥ b.readableBytes
  · have hle : len.toNat ≥ b.readableBytes.toNat := UInt64.le_iff_toNat_le.mp hall
    simp only [if_pos hall, dif_pos hle]
    rfl
  · have hlt : len.toNat < b.readableBytes.toNat :=
      UInt64.lt_iff_toNat_lt.mp (UInt64.not_le.mp hall)
    have hindex : (b.readerIndex + len).toNat = b.readerIndex.toNat + len.toNat :=
      toNat_add_of_lt (by omega)
    simp only [if_neg hall, dif_neg (Nat.not_le.mpr hlt), toByteBuf, hindex]

/-- Doubling a word that stays below `need` is doubling a number. -/
theorem toNat_grow {need c size : UInt64} {turns fuel : ℕ} (h : grow need turns c = some size)
    (hneed : need.toNat < 2 ^ 63) (hpos : 0 < c.toNat) (hfuel : need.toNat ≤ c.toNat + fuel) :
    size.toNat = ByteBuf.growCapacity need.toNat fuel c.toNat := by
  induction turns generalizing c fuel with
  | zero => cases h
  | succ turns ih =>
    rw [grow] at h
    split_ifs at h with hlt
    · have hless := UInt64.lt_iff_toNat_lt.mp hlt
      have htwo : (2 : UInt64).toNat = 2 := rfl
      have hdouble : (c * 2).toNat = c.toNat * 2 := by
        rw [UInt64.toNat_mul, htwo, Nat.mod_eq_of_lt (by omega)]
      cases fuel with
      | zero => omega
      | succ fuel =>
        rw [ByteBuf.growCapacity, if_pos hless, ← hdouble]
        exact ih h (by omega) (by omega)
    · have hmore := UInt64.le_iff_toNat_le.mp (UInt64.not_lt.mp hlt)
      cases h
      cases fuel with
      | zero => rfl
      | succ fuel => rw [ByteBuf.growCapacity, if_neg (by omega)]

theorem toNat_base (hsize : b.data.length < 2 ^ 62) :
    b.base.toNat = if b.data.length * 2 = 0 then 64 else b.data.length * 2 := by
  have htwo : (2 : UInt64).toNat = 2 := rfl
  have hdouble : (b.capacity * 2).toNat = b.data.length * 2 := by
    rw [UInt64.toNat_mul, toNat_capacity, htwo, Nat.mod_eq_of_lt (by omega)]
  have hzero : b.capacity * 2 = 0 ↔ b.data.length * 2 = 0 := by
    rw [← hdouble, ← UInt64.toNat_inj]
    rfl
  unfold base
  by_cases h : b.capacity * 2 = 0
  · rw [if_pos h, if_pos (hzero.mp h)]
    rfl
  · rw [if_neg h, if_neg fun h' => h (hzero.mpr h'), hdouble]

/-- Storage that grows keeps all it holds. -/
theorem toByteBuf_realloc (h : b.Ordered) {size : UInt64} (hsize : b.data.length ≤ size.toNat)
    (hordered : (b.realloc size).Ordered) :
    (b.realloc size).toByteBuf hordered = (b.toByteBuf h).expand size.toNat := by
  have hdata : (b.realloc size).data =
      b.data ++ List.replicate (size.toNat - b.data.length) 0 := by
    change b.data.take size.toNat ++ _ = _
    rw [List.take_of_length_le hsize]
  simp only [toByteBuf, ByteBuf.expand, ByteBuf.mk.injEq]
  exact ⟨hdata, rfl, rfl⟩

/-- The capacity that is asked for when there is no room. -/
theorem grow_base_eq {len : UInt64}
    (hsize : b.writerIndex.toNat + len.toNat < 2 ^ 62)
    (hroom : b.data.length < b.writerIndex.toNat + len.toNat) :
    ∃ size, grow (b.writerIndex + len) 65 b.base = some size ∧ b.data.length ≤ size.toNat ∧
      size.toNat = ByteBuf.growCapacity (b.writerIndex.toNat + len.toNat)
        (b.writerIndex.toNat + len.toNat)
        (if b.data.length * 2 = 0 then 64 else b.data.length * 2) := by
  have hneed : (b.writerIndex + len).toNat = b.writerIndex.toNat + len.toNat :=
    toNat_add_of_lt (by omega)
  have hbase := toNat_base (b := b) (by omega)
  have hpos : 0 < b.base.toNat := by
    rw [hbase]
    split_ifs <;> omega
  have hends := grow_isSome_iff (b.writerIndex + len) b.base 65
  rw [exists_turn_iff, hneed] at hends
  have hsome := hends.mpr ((expandable_of_lt hsize).resolve_left (by omega))
  obtain ⟨size, hgrow⟩ := Option.isSome_iff_exists.mp hsome
  have hle := UInt64.le_iff_toNat_le.mp (grow_eq_some hgrow)
  have hfuel : (b.writerIndex + len).toNat ≤
      b.base.toNat + (b.writerIndex.toNat + len.toNat) := by omega
  have hsame := toNat_grow hgrow (by omega) hpos hfuel
  rw [hneed] at hle hsame
  exact ⟨size, hgrow, by omega, hbase ▸ hsame⟩

theorem toByteBuf_ensureWritable (h : b.Ordered) {len : UInt64}
    (hsize : b.writerIndex.toNat + len.toNat < 2 ^ 62) :
    ∃ b' hb', b.ensureWritable true len = (.returned (), b') ∧
      b'.toByteBuf hb' = (b.toByteBuf h).ensureWritable len.toNat := by
  have hw := h.writer_le
  have hneed : (b.writerIndex + len).toNat = b.writerIndex.toNat + len.toNat :=
    toNat_add_of_lt (by omega)
  have hgt : b.writerIndex + len > b.capacity ↔
      (b.toByteBuf h).writerIndex + len.toNat > (b.toByteBuf h).capacity := by
    rw [gt_iff_lt, UInt64.lt_iff_toNat_lt, toNat_capacity, hneed]
    rfl
  unfold ensureWritable ByteBuf.ensureWritable
  by_cases hroom : b.writerIndex + len > b.capacity
  · obtain ⟨size, hgrow, hle, hsame⟩ := grow_base_eq hsize (hgt.mp hroom)
    have hordered := (readable_realloc h (hw.trans hle)).1
    rw [if_pos hroom, if_pos (hgt.mp hroom)]
    simp only [hgrow]
    refine ⟨b.realloc size, hordered, rfl, ?_⟩
    rw [toByteBuf_realloc h hle hordered, hsame]
    rfl
  · rw [if_neg hroom, if_neg fun h' => hroom (hgt.mpr h')]
    exact ⟨b, h, rfl, rfl⟩

/-- Copying to the writer index is the same, once there is room. -/
theorem toByteBuf_append (h : b.Ordered) {src : Bytes}
    (hroom : b.writerIndex.toNat + src.length ≤ b.data.length) :
    RawBuf.toByteBuf { b.store b.writerIndex src with
        writerIndex := b.writerIndex + UInt64.ofNat src.length } (readable_append h hroom).1 =
      (b.toByteBuf h).copyIn src hroom := by
  have hfits := b.fits
  have hlen : (UInt64.ofNat src.length).toNat = src.length :=
    UInt64.toNat_ofNat_of_lt' (show src.length < 2 ^ 64 by omega)
  have hwriter : (b.writerIndex + UInt64.ofNat src.length).toNat =
      b.writerIndex.toNat + src.length := by
    rw [toNat_add_of_lt (by omega), hlen]
  have hdata : (b.store b.writerIndex src).data = b.data.take b.writerIndex.toNat ++ src ++
      b.data.drop (b.writerIndex.toNat + src.length) := by
    apply List.take_of_length_le
    simp only [List.length_append, List.length_take, List.length_drop]
    omega
  simp only [toByteBuf, ByteBuf.copyIn, ByteBuf.mk.injEq]
  exact ⟨hdata, rfl, hwriter⟩

/-- **Writing** is the same in machine arithmetic. -/
theorem toByteBuf_writeBytes (h : b.Ordered) {src : Bytes}
    (hsize : b.writerIndex.toNat + src.length < 2 ^ 62) :
    ∃ b' hb', b.writeBytes true src = (.returned (), b') ∧
      b'.toByteBuf hb' = (b.toByteBuf h).writeBytes src := by
  have hlen : (UInt64.ofNat src.length).toNat = src.length :=
    UInt64.toNat_ofNat_of_lt' (show src.length < 2 ^ 64 by omega)
  rw [← hlen] at hsize
  obtain ⟨b', hb', heq, hsame⟩ := toByteBuf_ensureWritable h hsize
  rw [hlen] at hsame
  have hroom : b'.writerIndex.toNat + src.length ≤ b'.data.length := by
    have hfits := (b.toByteBuf h).ensureWritable_room src.length
    rw [← (b.toByteBuf h).writerIndex_ensureWritable src.length, ← hsame] at hfits
    exact hfits
  have hcopy : ∀ (buf : ByteBuf) (hbuf : b'.toByteBuf hb' = buf)
      (hfits : buf.writerIndex + src.length ≤ buf.data.length),
      buf.copyIn src hfits = (b'.toByteBuf hb').copyIn src hroom := by
    rintro _ rfl _
    rfl
  refine ⟨_, (readable_append hb' hroom).1, by rw [writeBytes, heq], ?_⟩
  rw [toByteBuf_append hb' hroom]
  exact (hcopy _ hsame _).symm

end RawBuf

end XNetty
