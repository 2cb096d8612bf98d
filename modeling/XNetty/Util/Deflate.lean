import XNetty.Http.Outbound
import XNetty.Util.Gzip

/-!
# Compression and back

`Gzip::compress` calls `deflate` until a call leaves room in its chunk. The library is again a
parameter, with the stream that it makes of the data. `strm.avail_in` has 32 bits on both ways, so
that both loops look at a front of what they are given when it is too long.

## Main definitions

* `Deflater` — the library.
* `Gzip.compress` — the loop.
* `Deflates` — what the library promises.
* `Gzip.compress_eq_some_iff` — what the loop returns.
* `Gzip.roundTrips_iff` — when decompression gives back what was compressed.
-/

namespace XNetty

/-! ### The library -/

/-- What `deflate` returns. -/
inductive DeflateCode where
  | ok
  | streamEnd
  | bufError
  | streamError
  deriving DecidableEq

/-- What a call of `deflate` does: it reads the first `consumed` bytes, and stores some. -/
structure Deflated (σ : Type*) where
  ret : DeflateCode
  consumed : ℕ
  stored : Bytes
  next : σ

/-- The library: `deflateInit2` for so many window bits, and `deflate` with `Z_FINISH`, offered some
bytes and some room. -/
structure Deflater (σ : Type*) where
  deflateInit2 : ℕ → Option σ
  deflate : σ → Bytes → ℕ → Deflated σ

variable {σ τ : Type*}

/-! ### `Gzip::compress` -/

namespace Gzip

/-- Sixteen more ask for a gzip header. -/
def windowBits : ContentEncoding → ℕ
  | .gzip => 15 + 16
  | .deflate => 15

/-- The stream between two turns of the loop, with `out`. -/
structure Deflating (σ : Type*) where
  stream : σ
  nextIn : Bytes
  out : Bytes

/-- A turn of the loop, which goes on while `strm.avail_out` is `0`. -/
def compressTurn (d : Deflater σ) (s : Deflating σ) :
    DoWhile.Turn (Deflating σ) (Except String Bytes) :=
  let r := d.deflate s.stream s.nextIn kChunk
  if r.ret = .streamError then .done (.error "deflate stream error")
  else
    let s' : Deflating σ :=
      { stream := r.next, nextIn := s.nextIn.drop r.consumed, out := s.out ++ r.stored }
    if kChunk - r.stored.length = 0 then .again s' else .done (.ok s'.out)

/-- `Gzip::compress`, as far as so many turns go. -/
def compress (d : Deflater σ) (enc : ContentEncoding) (fuel : ℕ) (data : Bytes) :
    Option (Except String Bytes) :=
  match d.deflateInit2 (windowBits enc) with
  | none => some (.error "deflateInit2 failed")
  | some stream => DoWhile.run (compressTurn d) fuel { stream, nextIn := availIn data, out := [] }

end Gzip

/-! ### What the library promises -/

/-- The library has read so many bytes of the data and stored `out`, a whole chunk with every call
so far. -/
inductive Writes (d : Deflater σ) (enc : ContentEncoding) (data : Bytes) : σ → ℕ → Bytes → Prop
  | init {s} (h : d.deflateInit2 (Gzip.windowBits enc) = some s) : Writes d enc data s 0 []
  | call {s n out} (h : Writes d enc data s n out)
      (hfull : (d.deflate s (data.drop n) Gzip.kChunk).stored.length = Gzip.kChunk) :
      Writes d enc data (d.deflate s (data.drop n) Gzip.kChunk).next
        (n + (d.deflate s (data.drop n) Gzip.kChunk).consumed)
        (out ++ (d.deflate s (data.drop n) Gzip.kChunk).stored)

/-- The library makes this stream of the data. -/
structure Deflates (d : Deflater σ) (enc : ContentEncoding) (data stream : Bytes) : Prop where
  init : (d.deflateInit2 (Gzip.windowBits enc)).isSome
  /-- The state of the stream is sound. -/
  sound : ∀ {s n out}, Writes d enc data s n out →
    (d.deflate s (data.drop n) Gzip.kChunk).ret ≠ .streamError
  /-- It stores no more than it has room for, and nothing but the stream. -/
  stored_le : ∀ {s n out}, Writes d enc data s n out →
    (d.deflate s (data.drop n) Gzip.kChunk).stored.length ≤ Gzip.kChunk
  stored_prefix : ∀ {s n out}, Writes d enc data s n out →
    out ++ (d.deflate s (data.drop n) Gzip.kChunk).stored <+: stream
  /-- When it leaves room, there was enough of it for the whole stream. -/
  flushed : ∀ {s n out}, Writes d enc data s n out →
    (d.deflate s (data.drop n) Gzip.kChunk).stored.length < Gzip.kChunk →
      out ++ (d.deflate s (data.drop n) Gzip.kChunk).stored = stream

/-- The stream is one of the data, as the other side reads it. -/
structure StreamFormat.Encodes (format : StreamFormat) (stream data : Bytes) : Prop where
  complete : format.Complete stream
  decoded : format.decoded stream = data
  sound : ∀ front, front <+: stream → ¬format.Refused front

namespace Gzip

/-! ### What the loop returns -/

variable {d : Deflater σ} {enc : ContentEncoding} {data stream : Bytes}

/-- The state is one that the library's calls lead to. -/
def Written (d : Deflater σ) (enc : ContentEncoding) (data : Bytes) (s : Deflating σ) : Prop :=
  ∃ n, Writes d enc data s.stream n s.out ∧ s.nextIn = data.drop n

/-- **A turn** stores another chunk of the stream, or its end. -/
theorem compressTurn_cases (hd : Deflates d enc data stream) {s : Deflating σ}
    (hs : Written d enc data s) :
    (∃ s', compressTurn d s = .again s' ∧ Written d enc data s' ∧
      s'.out.length = s.out.length + kChunk ∧ s'.out <+: stream) ∨
      compressTurn d s = .done (.ok stream) := by
  obtain ⟨n, hwrites, hnext⟩ := hs
  have hsound := hd.sound hwrites
  have hle := hd.stored_le hwrites
  have hprefix := hd.stored_prefix hwrites
  have hflushed := hd.flushed hwrites
  unfold compressTurn
  dsimp only
  rw [hnext, if_neg hsound]
  by_cases hfull : (d.deflate s.stream (data.drop n) kChunk).stored.length = kChunk
  · left
    rw [if_pos (by omega)]
    refine ⟨_, rfl, ⟨_, hwrites.call hfull, List.drop_drop ..⟩, ?_, hprefix⟩
    rw [List.length_append, hfull]
  · right
    rw [if_neg (by omega), hflushed (by omega)]

theorem compress_eq_run {s : σ} (hinit : d.deflateInit2 (windowBits enc) = some s) (fuel : ℕ)
    (data : Bytes) : compress d enc fuel data =
      DoWhile.run (compressTurn d) fuel { stream := s, nextIn := availIn data, out := [] } := by
  rw [compress, hinit]

/-- **`Gzip::compress` returns**, and it returns the stream of what the library is offered. -/
theorem compress_eq_some_iff (hd : Deflates d enc (availIn data) stream)
    (result : Except String Bytes) :
    (∃ fuel, compress d enc fuel data = some result) ↔ result = .ok stream := by
  obtain ⟨s, hinit⟩ := Option.isSome_iff_exists.mp hd.init
  have hstart : Written d enc (availIn data) { stream := s, nextIn := availIn data, out := [] } :=
    ⟨0, .init hinit, rfl⟩
  have hresult {fuel : ℕ} {result : Except String Bytes}
      (hrun : compress d enc fuel data = some result) : result = .ok stream := by
    rw [compress_eq_run hinit] at hrun
    refine DoWhile.run_spec (Q := fun result => result = .ok stream)
      (Written d enc (availIn data)) (fun s s' hs hturn => ?_) (fun s r hs hturn => ?_) hstart hrun
    · rcases compressTurn_cases hd hs with ⟨s'', hagain, hwritten, -⟩ | hdone
      · obtain rfl := DoWhile.Turn.again.inj (hturn.symm.trans hagain)
        exact hwritten
      · rw [hdone] at hturn
        cases hturn
    · rcases compressTurn_cases hd hs with ⟨s'', hagain, -⟩ | hdone
      · rw [hagain] at hturn
        cases hturn
      · exact DoWhile.Turn.done.inj (hturn.symm.trans hdone)
  constructor
  · rintro ⟨fuel, hrun⟩
    exact hresult hrun
  · rintro rfl
    -- what is left of the stream gets shorter by a chunk with every turn that goes on
    obtain ⟨fuel, result, hrun⟩ := DoWhile.exists_run (Written d enc (availIn data))
      (fun s => stream.length - s.out.length) (fun s s' hs hturn => by
        rcases compressTurn_cases hd hs with ⟨s'', hagain, hwritten, hlength, hprefix⟩ | hdone
        · obtain rfl := DoWhile.Turn.again.inj (hturn.symm.trans hagain)
          have hle := hprefix.length_le
          have hchunk : 0 < kChunk := by decide
          exact ⟨hwritten, by omega⟩
        · rw [hdone] at hturn
          cases hturn) hstart
    rw [← compress_eq_run hinit] at hrun
    exact ⟨fuel, by rw [hrun, hresult hrun]⟩

/-! ### There and back -/

theorem availIn_eq_iff : availIn data = data ↔ data.length < 2 ^ 32 := by
  unfold availIn
  rw [List.take_eq_self_iff]
  constructor
  · intro hle
    have hlt : data.length % 2 ^ 32 < 2 ^ 32 := Nat.mod_lt _ (by norm_num)
    omega
  · intro hlt
    rw [Nat.mod_eq_of_lt hlt]

/-- What was compressed is decompressed, in finitely many turns of both loops. -/
def RoundTrips (d : Deflater σ) (z : Zlib τ) (enc : ContentEncoding) (data : Bytes) : Prop :=
  ∃ compressed, (∃ fuel, compress d enc fuel data = some (.ok compressed)) ∧
    ∃ fuel, decompress z fuel compressed = some (.ok data)

variable {z : Zlib τ} {format : StreamFormat}

/-- An error is returned for bytes that are given up. -/
theorem refused_of_error {input : Bytes} (hz : Inflates z format input) {s : Inflating τ}
    (hs : Reached z input s) {fuel : ℕ} {msg : String}
    (h : DoWhile.run (turn z) fuel s = some (.error msg)) :
    ∃ front, front <+: input ∧ format.Refused front := by
  refine DoWhile.run_spec (Q := fun result => result = .error msg →
      ∃ front, front <+: input ∧ format.Refused front) (Reached z input)
    (fun s s' hs hturn => (turn_again hs hturn).2.2) (fun s result hs hturn hresult => ?_) hs h rfl
  obtain ⟨n, hreads, hnext⟩ := hs
  subst hresult
  unfold turn at hturn
  dsimp only at hturn
  rw [hnext] at hturn
  split_ifs at hturn with herror hend
  · exact ⟨_, List.take_prefix _ _, hz.error hreads herror⟩
  · cases hturn

/-- **The whole stream** decompresses to the data it was made of. -/
theorem decompress_stream_iff (henc : format.Encodes stream data) (hz : Inflates z format stream)
    (hinit : z.inflateInit2 ≠ none) (hlength : stream.length < 2 ^ 32)
    (result : Except String Bytes) :
    (∃ fuel, decompress z fuel stream = some result) ↔ result = .ok data := by
  have havail : availIn stream = stream := availIn_eq_iff.mpr hlength
  have hz' : Inflates z format (availIn stream) := by rwa [havail]
  have hresult {fuel : ℕ} {result : Except String Bytes}
      (hrun : decompress z fuel stream = some result) : result = .ok data := by
    cases result with
    | error msg =>
      obtain ⟨s, hs⟩ := Option.ne_none_iff_exists'.mp hinit
      rw [decompress_eq_run hs, havail] at hrun
      obtain ⟨front, hfront, hrefused⟩ := refused_of_error hz ⟨0, .init hs, rfl⟩ hrun
      exact absurd hrefused (henc.sound front hfront)
    | ok out =>
      obtain ⟨front, hfront, hcomplete, hout⟩ := (decompress_some hz' hrun).2 out rfl
      obtain rfl := format.complete_alone hcomplete henc.complete hfront
      rw [hout, henc.decoded]
  constructor
  · rintro ⟨fuel, hrun⟩
    exact hresult hrun
  · rintro rfl
    have hdecides : format.Decides (availIn stream) := by
      rw [havail]
      exact ⟨stream, List.prefix_rfl, .inl henc.complete⟩
    obtain ⟨fuel, result, hrun⟩ := exists_decompress hz' (.inr hdecides)
    exact ⟨fuel, by rw [hrun, hresult hrun]⟩

/-- **Compression and back.** The loops of `compress` and `decompress` both end, and give back the
data, if and only if neither the data nor the stream made of it has a length beyond 32 bits. -/
theorem roundTrips_iff (hd : Deflates d enc (availIn data) stream)
    (henc : format.Encodes stream (availIn data)) (hz : Inflates z format (availIn stream))
    (hinit : z.inflateInit2 ≠ none) :
    RoundTrips d z enc data ↔ data.length < 2 ^ 32 ∧ stream.length < 2 ^ 32 := by
  have hcompress := compress_eq_some_iff hd
  constructor
  · rintro ⟨compressed, hcompressed, fuel, hrun⟩
    obtain rfl := Except.ok.inj ((hcompress _).mp hcompressed)
    by_cases hlength : compressed.length < 2 ^ 32
    · rw [availIn_eq_iff.mpr hlength] at hz
      have hback := (decompress_stream_iff henc hz hinit hlength _).mp ⟨fuel, hrun⟩
      exact ⟨availIn_eq_iff.mp (Except.ok.inj hback).symm, hlength⟩
    · -- the end of the stream is never seen
      have hnone : decompress z fuel compressed = none :=
        decompress_of_truncated hz hinit henc.complete henc.sound (List.take_prefix _ _)
          (fun hsame => hlength (availIn_eq_iff.mp hsame)) fuel
      rw [hnone] at hrun
      cases hrun
  · rintro ⟨hdata, hstream⟩
    rw [availIn_eq_iff.mpr hstream] at hz
    have hback := decompress_stream_iff henc hz hinit hstream
    rw [availIn_eq_iff.mpr hdata] at hback
    exact ⟨stream, (hcompress _).mpr rfl, (hback _).mpr rfl⟩

/-! ### A letter -/

/-- A library that makes the stream of a letter, whatever it is offered. -/
def letterDeflater : Deflater ℕ where
  deflateInit2 _ := some 0
  deflate n input _ := ⟨.streamEnd, input.length, letterStream.drop n, letterStream.length⟩

theorem letterDeflater_deflates : Deflates letterDeflater .deflate [0x61] letterStream := by
  have hstart {s n : ℕ} {out : Bytes} (h : Writes letterDeflater .deflate [0x61] s n out) :
      s = 0 ∧ out = [] := by
    induction h with
    | init h => exact ⟨(Option.some.inj h).symm, rfl⟩
    | @call s n out _ hfull _ =>
      have hle : (letterStream.drop s).length ≤ letterStream.length := by
        rw [List.length_drop]
        exact Nat.sub_le _ _
      have hsmall : letterStream.length < kChunk := by decide
      exact absurd hfull (by change (letterStream.drop s).length ≠ kChunk; omega)
  constructor
  · rfl
  · exact fun _ => nofun
  · intro s n out h
    obtain ⟨rfl, rfl⟩ := hstart h
    exact show letterStream.length ≤ kChunk by decide
  · intro s n out h
    obtain ⟨rfl, rfl⟩ := hstart h
    exact List.prefix_rfl
  · intro s n out h _
    obtain ⟨rfl, rfl⟩ := hstart h
    rfl

theorem letterFormat_encodes : letterFormat.Encodes letterStream [0x61] where
  complete := rfl
  decoded := rfl
  sound _ hfront hrefused := hrefused.1 hfront

/-- The letter comes back. -/
theorem roundTrips_letter : RoundTrips letterDeflater letterZlib .deflate [0x61] := by
  have havail : availIn [0x61] = [0x61] := rfl
  exact (roundTrips_iff (havail ▸ letterDeflater_deflates) (havail ▸ letterFormat_encodes)
    (letterZlib_inflates _) nofun).mpr (by decide)

end Gzip

end XNetty
