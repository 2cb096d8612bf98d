import XNetty.Buffer.Bounds

/-!
# Trimming a byte buffer

`trim` cuts the storage off and counts the bytes that it keeps from the front of the storage, not
from the reader index. `shrink` moves them there first.

## Main definitions

* `RawBuf.TrimsFront` — the bytes at the front of the storage are the ones to keep.
* `RawBuf.trim_iff` — when `trim` keeps the front of what is readable.
-/

namespace XNetty

namespace RawBuf

/-- How many bytes `trim` keeps. -/
def kept (b : RawBuf) (maxCap : UInt64) : ℕ := min b.readableBytes.toNat maxCap.toNat

/-- The storage is not cut, or it begins with what is to be kept. -/
def TrimsFront (b : RawBuf) (maxCap : UInt64) : Prop :=
  b.capacity ≤ maxCap ∨
    b.data.take (b.kept maxCap) = (b.data.drop b.readerIndex.toNat).take (b.kept maxCap)

instance (b : RawBuf) (maxCap : UInt64) : Decidable (b.TrimsFront maxCap) :=
  inferInstanceAs (Decidable (_ ∨ _))

variable {b : RawBuf} {maxCap : UInt64}

theorem trimsFront_of_reader_zero (h : b.readerIndex = 0) : b.TrimsFront maxCap := by
  right
  rw [h]
  rfl

theorem capacity_trim (b : RawBuf) (maxCap : UInt64) :
    (b.trim true maxCap).capacity = min b.capacity maxCap := by
  apply UInt64.toNat_inj.mp
  rw [toNat_min, toNat_capacity, toNat_capacity]
  by_cases hcut : b.capacity > maxCap
  · have hlt := UInt64.lt_iff_toNat_lt.mp hcut
    rw [toNat_capacity] at hlt
    have hdata : (b.trim true maxCap).data = (b.realloc maxCap).data := by
      rw [trim, if_pos ⟨hcut, rfl⟩]
    rw [hdata, length_data_realloc, min_eq_right hlt.le]
  · have hle := UInt64.le_iff_toNat_le.mp (UInt64.not_lt.mp hcut)
    rw [toNat_capacity] at hle
    rw [trim, if_neg fun h => hcut h.1, min_eq_left hle]

/-- What is readable behind a cut is the front of the storage. -/
theorem readable_trim_of_cut (h : b.Ordered) (hcut : b.capacity > maxCap) :
    (b.trim true maxCap).readable = b.data.take (b.kept maxCap) := by
  have hsize := UInt64.lt_iff_toNat_lt.mp hcut
  rw [toNat_capacity] at hsize
  have hkept : (min b.readableBytes maxCap).toNat = b.kept maxCap := toNat_min _ _
  have hle : b.kept maxCap ≤ maxCap.toNat := min_le_right _ _
  have hlength : b.kept maxCap ≤ (b.data.take maxCap.toNat).length := by
    rw [List.length_take]
    omega
  rw [readable_eq (ordered_trim h true maxCap), trim, if_pos ⟨hcut, rfl⟩]
  change ((b.data.take maxCap.toNat ++ _).take (min b.readableBytes maxCap).toNat).drop 0 = _
  rw [hkept, List.drop_zero, List.take_append_of_le_length hlength, List.take_take,
    min_eq_left hle]

/-- The front of what is readable. -/
theorem take_kept_readable (b : RawBuf) (maxCap : UInt64) :
    b.readable.take (b.kept maxCap) =
      (b.data.drop b.readerIndex.toNat).take (b.kept maxCap) := by
  have hle : b.kept maxCap ≤ b.readableBytes.toNat := min_le_left _ _
  rw [readable, window, List.take_take, min_eq_left hle]

theorem readable_trim_iff (h : b.Ordered) (maxCap : UInt64) :
    ((b.trim true maxCap).readable =
        if b.capacity > maxCap then b.readable.take (min b.readableBytes.toNat maxCap.toNat)
        else b.readable) ↔
      b.TrimsFront maxCap := by
  by_cases hcut : b.capacity > maxCap
  · have hstorage : ¬b.capacity ≤ maxCap := UInt64.not_le.mpr hcut
    rw [if_pos hcut, readable_trim_of_cut h hcut, TrimsFront, or_iff_right hstorage,
      ← take_kept_readable]
    rfl
  · rw [if_neg hcut, trim, if_neg fun h => hcut h.1]
    exact iff_of_true rfl (.inl (UInt64.not_lt.mp hcut))

/-- **`trim` keeps the front of what is readable** just when that is what the storage begins with.
The capacity is right in any case. -/
theorem trim_iff (h : b.Ordered) (_hpos : 0 < maxCap) :
    ((b.trim true maxCap).capacity = min b.capacity maxCap ∧
      (b.trim true maxCap).readable =
        if b.capacity > maxCap then b.readable.take (min b.readableBytes.toNat maxCap.toNat)
        else b.readable) ↔
      b.TrimsFront maxCap := by
  rw [and_iff_right (capacity_trim b maxCap)]
  exact readable_trim_iff h maxCap

/-- Nothing has been read, so the front is in its place. -/
theorem trim_iff_of_unread :
    let b := ofBytes [1, 2, 3, 4] (by decide)
    ((b.trim true 3).capacity = min b.capacity 3 ∧
      (b.trim true 3).readable =
        if b.capacity > 3 then b.readable.take (min b.readableBytes.toNat (3 : UInt64).toNat)
        else b.readable) ↔
      b.TrimsFront 3 :=
  trim_iff (readable_ofBytes _).1 (by decide)

/-- Two bytes are left of four, and the other two are kept. -/
theorem not_trim_front :
    ¬∀ (b : RawBuf) (maxCap : UInt64), b.Ordered → 0 < maxCap →
      (b.trim true maxCap).capacity = min b.capacity maxCap ∧
        (b.trim true maxCap).readable =
          if b.capacity > maxCap then b.readable.take (min b.readableBytes.toNat maxCap.toNat)
          else b.readable := by
  intro h
  have hordered : ((ofBytes [1, 2, 3, 4] (by decide)).readBytes 2).2.Ordered :=
    ⟨by decide +kernel, by decide +kernel⟩
  exact absurd (h _ 3 hordered (by decide)).2 (by decide +kernel)

/-- **Moving what is readable first**, as `shrink` does, makes every cut right. -/
theorem readable_trim_compact (h : b.Ordered) (maxCap : UInt64) :
    (b.compact.trim true maxCap).readable =
      if b.compact.capacity > maxCap then
        b.readable.take (min b.compact.readableBytes.toNat maxCap.toNat)
      else b.readable := by
  obtain ⟨hordered, hreadable, _⟩ := readable_compact h
  have hreader : b.compact.readerIndex = 0 := by
    unfold compact
    split_ifs with hmoved
    · rfl
    · exact UInt64.le_zero_iff.mp (UInt64.not_lt.mp hmoved)
  rw [← hreadable]
  exact (readable_trim_iff hordered maxCap).mpr (trimsFront_of_reader_zero hreader)

end RawBuf

end XNetty
