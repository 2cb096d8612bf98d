import XNetty.Buffer.RawBuf

/-!
# What is readable behind each operation

A buffer whose indices are in order stands for the bytes between them. Each operation is described
by what it does to these bytes, however the storage is moved about for it.

## Main definitions

* `RawBuf.writeBytes_spec`, `RawBuf.ensureWritable_spec` — writing, with all ways to fail.
* `RawBuf.readBytes_of_le`, `RawBuf.readable_discard` — taking bytes from the front.
* `RawBuf.readable_shrink`, `RawBuf.readable_copyOf` — moves that change nothing.
-/

namespace XNetty

namespace RawBuf

variable {b : RawBuf}

/-! ### Writing -/

/-- The bytes at the writer index, once there is room for them. -/
theorem readable_append (h : b.Ordered) {src : Bytes}
    (hroom : b.writerIndex.toNat + src.length ≤ b.data.length) :
    let b' : RawBuf := { b.store b.writerIndex src with
      writerIndex := b.writerIndex + UInt64.ofNat src.length }
    b'.Ordered ∧ b'.readable = b.readable ++ src := by
  intro b'
  have hfits := b.fits
  have hr := h.reader_le
  have hw := h.writer_le
  have hlen : (UInt64.ofNat src.length).toNat = src.length :=
    UInt64.toNat_ofNat_of_lt' (show src.length < 2 ^ 64 by omega)
  have hwriter : b'.writerIndex.toNat = b.writerIndex.toNat + src.length := by
    rw [toNat_add_of_lt (by omega), hlen]
  have hreader : b'.readerIndex = b.readerIndex := rfl
  have hfront : (b.data.take b.writerIndex.toNat ++ src).length =
      b.writerIndex.toNat + src.length := by
    rw [List.length_append, List.length_take, min_eq_left hw]
  have hdata : b'.data = (b.data.take b.writerIndex.toNat ++ src) ++
      b.data.drop (b.writerIndex.toNat + src.length) := by
    apply List.take_of_length_le
    rw [List.length_append, hfront, List.length_drop]
    omega
  have hlength : b'.data.length = b.data.length := by
    rw [hdata, List.length_append, hfront, List.length_drop]
    omega
  have hordered : b'.Ordered := ⟨by rw [hreader]; omega, by omega⟩
  refine ⟨hordered, ?_⟩
  rw [readable_eq hordered, readable_eq h, hreader, hwriter, hdata, ← hfront, List.take_left,
    List.drop_append_of_le_length]
  rw [List.length_take]
  omega

/-- What `ensureWritable` comes to. -/
theorem ensureWritable_spec (h : b.Ordered) (granted : Bool) {len : UInt64}
    (hsize : b.writerIndex.toNat + len.toNat < 2 ^ 64) :
    (¬b.Expandable len ∧ b.ensureWritable granted len = (.never, b)) ∨
      b.Expandable len ∧
        ((granted = false ∧ b.ensureWritable granted len = (.badAlloc, b)) ∨
          ∃ b', b.ensureWritable granted len = (.returned (), b') ∧ b'.Ordered ∧
            b'.readable = b.readable ∧ b'.writerIndex = b.writerIndex ∧
            b.writerIndex.toNat + len.toNat ≤ b'.data.length) := by
  obtain hnever | ⟨hexp, ⟨hroom, heq⟩ | ⟨size, hneed, hmore, heq⟩⟩ :=
    ensureWritable_cases granted hsize
  · exact .inl hnever
  · exact .inr ⟨hexp, .inr ⟨b, heq, h, rfl, rfl, hroom⟩⟩
  · rw [heq]
    refine .inr ⟨hexp, ?_⟩
    cases granted with
    | false => exact .inl ⟨rfl, rfl⟩
    | true =>
      have hkeeps : b.writerIndex.toNat ≤ size.toNat := by omega
      obtain ⟨hordered, hreadable⟩ := readable_realloc h hkeeps
      exact .inr ⟨b.realloc size, rfl, hordered, hreadable, rfl, by simpa using hneed⟩

/-- What `writeBytes` comes to. -/
theorem writeBytes_spec (h : b.Ordered) (granted : Bool) {src : Bytes}
    (hsize : b.writerIndex.toNat + src.length < 2 ^ 64) :
    (¬b.Expandable (UInt64.ofNat src.length) ∧ b.writeBytes granted src = (.never, b)) ∨
      b.Expandable (UInt64.ofNat src.length) ∧
        ((granted = false ∧ b.writeBytes granted src = (.badAlloc, b)) ∨
          ∃ b', b.writeBytes granted src = (.returned (), b') ∧ b'.Ordered ∧
            b'.readable = b.readable ++ src) := by
  have hlen : (UInt64.ofNat src.length).toNat = src.length :=
    UInt64.toNat_ofNat_of_lt' (show src.length < 2 ^ 64 by omega)
  rw [← hlen] at hsize
  obtain ⟨hnot, heq⟩ | ⟨hexp, ⟨hno, heq⟩ | ⟨b', heq, hordered, hreadable, hwriter, hroom⟩⟩ :=
    ensureWritable_spec h granted hsize
  · exact .inl ⟨hnot, by rw [writeBytes, heq]⟩
  · exact .inr ⟨hexp, .inl ⟨hno, by rw [writeBytes, heq]⟩⟩
  · rw [hlen, ← hwriter] at hroom
    obtain ⟨hordered', hreadable'⟩ := readable_append hordered hroom
    refine .inr ⟨hexp, .inr ⟨_, ?_, hordered', hreadable'.trans (by rw [hreadable])⟩⟩
    rw [writeBytes, heq]

/-! ### Reading -/

/-- The reader index moves on. -/
theorem readable_advance (h : b.Ordered) {n : ℕ} (hn : n ≤ b.readable.length) {index : UInt64}
    (hindex : index.toNat = b.readerIndex.toNat + n) :
    ({ b with readerIndex := index } : RawBuf).Ordered ∧
      ({ b with readerIndex := index } : RawBuf).readable = b.readable.drop n := by
  have hr := h.reader_le
  rw [length_readable h, toNat_readableBytes h] at hn
  have hordered : ({ b with readerIndex := index } : RawBuf).Ordered :=
    ⟨show index.toNat ≤ b.writerIndex.toNat by omega, h.writer_le⟩
  rw [readable_eq hordered, readable_eq h, List.drop_drop, hindex]
  exact ⟨hordered, rfl⟩

theorem readBytes_of_le (h : b.Ordered) {len : UInt64} (hlen : len.toNat ≤ b.readable.length) :
    ∃ b', b.readBytes len = (.returned ⟨b.readerIndex, len, b.readable.take len.toNat⟩, b') ∧
      b'.Ordered ∧ b'.readable = b.readable.drop len.toNat := by
  have hr := h.reader_le
  have hw := b.writerIndex.toNat_lt
  have hcount := length_readable h
  rw [toNat_readableBytes h] at hcount
  have hindex : (b.readerIndex + len).toNat = b.readerIndex.toNat + len.toNat :=
    toNat_add_of_lt (by omega)
  have hnot : ¬b.readableBytes < len := by
    rw [UInt64.lt_iff_toNat_lt, toNat_readableBytes h]
    omega
  have hcopied : b.copied b.readerIndex len =
      ⟨b.readerIndex, len, b.readable.take len.toNat⟩ := by
    rw [copied, readable, window, window, List.take_take, toNat_readableBytes h, min_eq_left]
    omega
  exact ⟨_, by rw [readBytes, if_neg hnot, hcopied], readable_advance h hlen hindex⟩

theorem readBytes_of_lt (h : b.Ordered) {len : UInt64} (hlen : b.readable.length < len.toNat) :
    b.readBytes len = (.outOfRange, b) := by
  rw [length_readable h] at hlen
  rw [readBytes, if_pos (UInt64.lt_iff_toNat_lt.mpr hlen)]

theorem readable_clear (b : RawBuf) : b.clear.Ordered ∧ b.clear.readable = [] := by
  have hordered : b.clear.Ordered := ⟨le_rfl, Nat.zero_le _⟩
  exact ⟨hordered, by rw [readable_eq hordered]; rfl⟩

theorem readable_discard (h : b.Ordered) (len : UInt64) :
    (b.discard len).Ordered ∧ (b.discard len).readable = b.readable.drop len.toNat := by
  have hr := h.reader_le
  have hw := b.writerIndex.toNat_lt
  have hcount := length_readable h
  unfold discard
  split_ifs with hall
  · have hlen := UInt64.le_iff_toNat_le.mp hall
    have hindex : b.writerIndex.toNat = b.readerIndex.toNat + b.readable.length := by
      rw [hcount, toNat_readableBytes h]
      omega
    rw [List.drop_eq_nil_of_le (by omega), ← List.drop_length (l := b.readable)]
    exact readable_advance h le_rfl hindex
  · have hlen := UInt64.lt_iff_toNat_lt.mp (UInt64.not_le.mp hall)
    rw [toNat_readableBytes h] at hlen
    have hindex : (b.readerIndex + len).toNat = b.readerIndex.toNat + len.toNat :=
      toNat_add_of_lt (by omega)
    rw [toNat_readableBytes h] at hcount
    exact readable_advance h (by omega) hindex

/-! ### Storage -/

theorem readable_reserve (h : b.Ordered) (newCapacity : UInt64) :
    ∃ b', b.reserve true newCapacity = (.returned (), b') ∧ b'.Ordered ∧
      b'.readable = b.readable := by
  have hw := h.writer_le
  unfold reserve
  split_ifs with hmore
  · have hlt := UInt64.lt_iff_toNat_lt.mp hmore
    rw [toNat_capacity] at hlt
    exact ⟨_, rfl, readable_realloc h (by omega)⟩
  · exact ⟨b, rfl, h, rfl⟩

theorem ofNat_length_readable (h : b.Ordered) :
    UInt64.ofNat b.readable.length = b.readableBytes := by
  rw [length_readable h, UInt64.ofNat_toNat]

/-- Moving what is readable to the front is writing it into the buffer when it is empty. -/
theorem readable_compact (h : b.Ordered) :
    b.compact.Ordered ∧ b.compact.readable = b.readable ∧
      b.compact.writerIndex.toNat = b.readable.length := by
  have hw := h.writer_le
  have hcount := length_readable h
  rw [toNat_readableBytes h] at hcount
  unfold compact
  split_ifs with hmoved
  · obtain ⟨hclear, hempty⟩ := readable_clear b
    have hroom : b.clear.writerIndex.toNat + b.readable.length ≤ b.clear.data.length := by
      change 0 + b.readable.length ≤ b.data.length
      omega
    obtain ⟨hordered, hreadable⟩ := readable_append hclear hroom
    have hwriter : b.clear.writerIndex + UInt64.ofNat b.readable.length = b.readableBytes := by
      rw [ofNat_length_readable h]
      exact UInt64.zero_add _
    rw [hwriter] at hordered hreadable
    rw [hempty, List.nil_append] at hreadable
    exact ⟨hordered, hreadable, (length_readable h).symm⟩
  · have hzero : b.readerIndex.toNat = 0 :=
      Nat.le_zero.mp (UInt64.le_iff_toNat_le.mp (UInt64.not_lt.mp hmoved))
    exact ⟨h, rfl, by omega⟩

theorem readable_shrink (h : b.Ordered) (granted : Bool) :
    (b.shrink granted).Ordered ∧ (b.shrink granted).readable = b.readable := by
  obtain ⟨hordered, hreadable, hwriter⟩ := readable_compact h
  have hcount := length_readable h
  have hle : b.readableBytes ≤ b.capacity := by
    have hw := h.writer_le
    rw [UInt64.le_iff_toNat_le, toNat_capacity, toNat_readableBytes h]
    omega
  simp only [shrink]
  split_ifs with hwaste
  · -- The waste is more than what is added, so the sum does not wrap around.
    have hmore := UInt64.lt_iff_toNat_lt.mp hwaste.1
    have hfits := b.fits
    rw [UInt64.toNat_sub_of_le _ _ hle, toNat_capacity] at hmore
    have hkilo : (1024 : UInt64).toNat = 1024 := rfl
    have hsize : (b.readableBytes + 64).toNat = b.readableBytes.toNat + 64 := by
      rw [UInt64.toNat_add, Nat.mod_eq_of_lt]
      · rfl
      · have hsixty : (64 : UInt64).toNat = 64 := rfl
        omega
    obtain ⟨hordered', hreadable'⟩ := readable_realloc hordered
      (show b.compact.writerIndex.toNat ≤ (b.readableBytes + 64).toNat by omega)
    exact ⟨hordered', hreadable'.trans hreadable⟩
  · exact ⟨hordered, hreadable⟩

/-! ### Construction -/

theorem readable_ofCapacity (n : UInt64) :
    (ofCapacity n).Ordered ∧ (ofCapacity n).readable = [] := by
  have hordered : (ofCapacity n).Ordered := ⟨le_rfl, Nat.zero_le _⟩
  exact ⟨hordered, by rw [readable_eq hordered]; rfl⟩

theorem readable_ofBytes {bytes : Bytes} (hbytes : bytes.length < 2 ^ 64) :
    (ofBytes bytes hbytes).Ordered ∧ (ofBytes bytes hbytes).readable = bytes := by
  have hlen : (UInt64.ofNat bytes.length).toNat = bytes.length :=
    UInt64.toNat_ofNat_of_lt' hbytes
  have hordered : (ofBytes bytes hbytes).Ordered := ⟨Nat.zero_le _, hlen.le⟩
  refine ⟨hordered, ?_⟩
  rw [readable_eq hordered]
  change (bytes.take (UInt64.ofNat bytes.length).toNat).drop 0 = bytes
  rw [hlen, List.take_length, List.drop_zero]

theorem data_store_zero (b : RawBuf) {src : Bytes} (hsrc : src.length ≤ b.data.length) :
    (b.store 0 src).data = src ++ b.data.drop src.length := by
  have hdata : (b.store 0 src).data =
      (b.data.take 0 ++ src ++ b.data.drop (0 + src.length)).take b.data.length := rfl
  rw [hdata, List.take_zero, List.nil_append, Nat.zero_add, List.take_of_length_le]
  rw [List.length_append, List.length_drop]
  omega

/-- The part of the storage that a copy shares with its original is the part that counts. -/
theorem readable_copyOf (h : b.Ordered) :
    b.copyOf.Ordered ∧ b.copyOf.readable = b.readable := by
  have hw := h.writer_le
  unfold copyOf
  split_ifs with hstorage
  · have hwindow : b.window 0 b.writerIndex = b.data.take b.writerIndex.toNat := rfl
    have hlength : (b.window 0 b.writerIndex).length = b.writerIndex.toNat := by
      rw [hwindow, List.length_take, min_eq_left hw]
    have hfree : (b.window 0 b.writerIndex).length ≤ (ofCapacity b.capacity).data.length := by
      simpa [ofCapacity, hlength] using hw
    have hdata := data_store_zero { ofCapacity b.capacity with
      readerIndex := b.readerIndex, writerIndex := b.writerIndex } hfree
    refine readable_congr h rfl rfl ?_ ?_
    · rw [hdata, List.length_append]
      omega
    · rw [hdata, List.take_left' hlength, hwindow]
  · have hnone : b.data.length = 0 := by
      have hle := UInt64.le_iff_toNat_le.mp (UInt64.not_lt.mp hstorage)
      rw [toNat_capacity] at hle
      exact Nat.le_zero.mp hle
    have hdata : b.data = [] := List.eq_nil_of_length_eq_zero hnone
    exact readable_congr h rfl rfl (by simpa [hnone] using hw) (by rw [hdata])

end RawBuf

end XNetty
