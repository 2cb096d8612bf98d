import Mathlib.Data.Prod.Lex
import XNetty.Buffer.ByteBuf
import XNetty.Lib.DoWhile

/-!
# Decompression

`Gzip::decompress` calls `inflate` until it reports the end of the stream or one of three errors.
The library is a parameter: it reads a part of the input that it is offered, stores a part of the
output, and says why it stops. When it stops because it has nothing to go on with, it is called
again with the same input.

## Main definitions

* `Zlib` — the library.
* `Gzip.decompress` — the loop.
* `Inflates` — what the library promises.
* `Gzip.finishes_iff` — when the loop ends.
* `Gzip.decompress_of_truncated` — a stream that is cut off keeps it busy for ever.
-/

namespace XNetty

/-! ### The library -/

/-- What `inflate` returns. -/
inductive InflateCode where
  | ok
  | streamEnd
  | needDict
  | bufError
  | streamError
  | dataError
  | memError
  deriving DecidableEq

/-- What a call of `inflate` does: it reads the first `consumed` bytes, and stores some. -/
structure Inflated (σ : Type*) where
  ret : InflateCode
  consumed : ℕ
  stored : Bytes
  next : σ

/-- The library: `inflate` is offered some bytes and some room. -/
structure Zlib (σ : Type*) where
  inflateInit2 : Option σ
  inflate : σ → Bytes → ℕ → Inflated σ

variable {σ : Type*}

/-! ### `Gzip::decompress` -/

namespace Gzip

def kChunk : ℕ := 16384

/-- The stream between two turns of the loop, with `out`. -/
structure Inflating (σ : Type*) where
  stream : σ
  nextIn : Bytes
  out : Bytes

/-- The errors that the loop looks for. -/
def isError (ret : InflateCode) : Prop :=
  ret = .streamError ∨ ret = .dataError ∨ ret = .memError

instance (ret : InflateCode) : Decidable (isError ret) := inferInstanceAs (Decidable (_ ∨ _))

/-- A turn of the loop. -/
def turn (z : Zlib σ) (s : Inflating σ) : DoWhile.Turn (Inflating σ) (Except String Bytes) :=
  let r := z.inflate s.stream s.nextIn kChunk
  if isError r.ret then .done (.error "inflate error")
  else
    let s' : Inflating σ :=
      { stream := r.next, nextIn := s.nextIn.drop r.consumed, out := s.out ++ r.stored }
    if r.ret = .streamEnd then .done (.ok s'.out) else .again s'

/-- What `strm.avail_in`, of 32 bits, leaves of the data. -/
def availIn (data : Bytes) : Bytes := data.take (data.length % 2 ^ 32)

/-- `Gzip::decompress`, as far as so many turns go. -/
def decompress (z : Zlib σ) (fuel : ℕ) (data : Bytes) : Option (Except String Bytes) :=
  match z.inflateInit2 with
  | none => some (.error "inflateInit2 failed")
  | some stream => DoWhile.run (turn z) fuel { stream, nextIn := availIn data, out := [] }

end Gzip

/-! ### What the library promises -/

/-- Streams, as the library reads them. -/
structure StreamFormat where
  /-- The bytes are a complete stream. -/
  Complete : Bytes → Prop
  /-- The bytes are given up, as corrupt or for want of memory. -/
  Refused : Bytes → Prop
  /-- What can be output when the bytes have been read. -/
  decoded : Bytes → Bytes
  /-- No stream goes on behind its end. -/
  complete_alone : ∀ {a b}, Complete a → Complete b → a <+: b → a = b

/-- The data begins with a complete stream, or with bytes that are given up. -/
def StreamFormat.Decides (format : StreamFormat) (data : Bytes) : Prop :=
  ∃ front, front <+: data ∧ (format.Complete front ∨ format.Refused front)

/-- The call neither ends the stream nor gives it up. -/
def Inflated.GoesOn (r : Inflated σ) : Prop := ¬Gzip.isError r.ret ∧ r.ret ≠ .streamEnd

/-- The library has read so many bytes of the data and stored `out`. It is always offered all that
is left, and a whole chunk of room. -/
inductive Reads (z : Zlib σ) (data : Bytes) : σ → ℕ → Bytes → Prop
  | init {s} (h : z.inflateInit2 = some s) : Reads z data s 0 []
  | call {s n out} (h : Reads z data s n out)
      (hon : (z.inflate s (data.drop n) Gzip.kChunk).GoesOn) :
      Reads z data (z.inflate s (data.drop n) Gzip.kChunk).next
        (n + (z.inflate s (data.drop n) Gzip.kChunk).consumed)
        (out ++ (z.inflate s (data.drop n) Gzip.kChunk).stored)

/-- What the library promises about its calls on the data. -/
structure Inflates (z : Zlib σ) (format : StreamFormat) (data : Bytes) : Prop where
  /-- It reads no more than it is offered. -/
  consumed_le : ∀ {s n out}, Reads z data s n out →
    (z.inflate s (data.drop n) Gzip.kChunk).consumed ≤ (data.drop n).length
  /-- What it has stored is a front of what the bytes it has read decode to. -/
  stored_prefix : ∀ {s n out}, Reads z data s n out → out <+: format.decoded (data.take n)
  /-- A call makes progress in input or output, or leaves the stream as it is and says so. -/
  progress : ∀ {s n out}, Reads z data s n out →
    let r := z.inflate s (data.drop n) Gzip.kChunk
    r.GoesOn → 0 < r.consumed ∨ r.stored ≠ [] ∨
      (r.ret = .bufError ∨ r.ret = .needDict) ∧ r.next = s
  /-- It says so, with room for output, only for want of input or of a dictionary. -/
  wanting : ∀ {s n out}, Reads z data s n out →
    let r := z.inflate s (data.drop n) Gzip.kChunk
    r.ret = .bufError ∨ r.ret = .needDict → r.consumed = 0 → r.stored = [] →
      ¬format.Decides data
  /-- The end of the stream is reported when a complete stream has been read and decoded. -/
  streamEnd : ∀ {s n out}, Reads z data s n out →
    let r := z.inflate s (data.drop n) Gzip.kChunk
    r.ret = .streamEnd → format.Complete (data.take (n + r.consumed)) ∧
      out ++ r.stored = format.decoded (data.take (n + r.consumed))
  /-- An error is reported for bytes that are given up. -/
  error : ∀ {s n out}, Reads z data s n out →
    let r := z.inflate s (data.drop n) Gzip.kChunk
    Gzip.isError r.ret → format.Refused (data.take (n + r.consumed))

namespace Gzip

/-! ### When the loop ends -/

/-- The result is an exception, or the output of the complete stream that the data begins with. -/
def FullOrError (format : StreamFormat) (data : Bytes) (result : Except String Bytes) : Prop :=
  ∀ out, result = .ok out → ∃ front, front <+: data ∧ format.Complete front ∧
    out = format.decoded front

/-- The loop ends after finitely many turns, with the full output or an exception. -/
def Finishes (z : Zlib σ) (format : StreamFormat) (data : Bytes) : Prop :=
  ∃ fuel result, decompress z fuel data = some result ∧ FullOrError format data result

/-- The state is one that the library's calls lead to. -/
def Reached (z : Zlib σ) (data : Bytes) (s : Inflating σ) : Prop :=
  ∃ n, Reads z data s.stream n s.out ∧ s.nextIn = data.drop n

/-- What is left to read, and then what is left to store. -/
def remaining (format : StreamFormat) (data : Bytes) (s : Inflating σ) : ℕ ×ₗ ℕ :=
  toLex (s.nextIn.length,
    (format.decoded (data.take (data.length - s.nextIn.length))).length - s.out.length)

variable {z : Zlib σ} {format : StreamFormat} {data : Bytes}

/-- **A turn that goes on** leads to another state of the library. -/
theorem turn_again {s s' : Inflating σ} (hs : Reached z data s) (h : turn z s = .again s') :
    (z.inflate s.stream s.nextIn kChunk).GoesOn ∧
      s' = { stream := (z.inflate s.stream s.nextIn kChunk).next,
             nextIn := s.nextIn.drop (z.inflate s.stream s.nextIn kChunk).consumed,
             out := s.out ++ (z.inflate s.stream s.nextIn kChunk).stored } ∧
      Reached z data s' := by
  obtain ⟨n, hreads, hnext⟩ := hs
  unfold turn at h
  dsimp only at h
  split_ifs at h with herror hend
  obtain rfl := DoWhile.Turn.again.inj h
  have hon : (z.inflate s.stream s.nextIn kChunk).GoesOn := ⟨herror, hend⟩
  refine ⟨hon, rfl, n + (z.inflate s.stream s.nextIn kChunk).consumed, ?_, ?_⟩
  · rw [hnext] at hon ⊢
    exact hreads.call hon
  · rw [hnext, List.drop_drop]

/-- **The last turn** has come to the end of a stream, or to bytes that are given up. -/
theorem turn_done (hz : Inflates z format data) {s : Inflating σ} {result : Except String Bytes}
    (hs : Reached z data s) (h : turn z s = .done result) :
    format.Decides data ∧ FullOrError format data result := by
  obtain ⟨n, hreads, hnext⟩ := hs
  unfold turn at h
  dsimp only at h
  rw [hnext] at h
  split_ifs at h with herror hend
  · obtain rfl := DoWhile.Turn.done.inj h
    exact ⟨⟨_, List.take_prefix _ _, .inr (hz.error hreads herror)⟩, nofun⟩
  · obtain rfl := DoWhile.Turn.done.inj h
    obtain ⟨hcomplete, hout⟩ := hz.streamEnd hreads hend
    refine ⟨⟨_, List.take_prefix _ _, .inl hcomplete⟩, ?_⟩
    intro out heq
    obtain rfl := Except.ok.inj heq
    exact ⟨_, List.take_prefix _ _, hcomplete, hout⟩

theorem reads_le (hz : Inflates z format data) {s : σ} {n : ℕ} {out : Bytes}
    (h : Reads z data s n out) : n ≤ data.length := by
  induction h with
  | init => exact Nat.zero_le _
  | call h _ ih =>
    have hle := hz.consumed_le h
    rw [List.length_drop] at hle
    omega

/-- What is left to read, and then what is left to store. -/
theorem remaining_eq (hz : Inflates z format data) {s : Inflating σ} {n : ℕ}
    (h : Reads z data s.stream n s.out) (hnext : s.nextIn = data.drop n) :
    remaining format data s =
      toLex (data.length - n, (format.decoded (data.take n)).length - s.out.length) := by
  have hle := reads_le hz h
  have hlength : s.nextIn.length = data.length - n := by rw [hnext, List.length_drop]
  have hread : data.length - s.nextIn.length = n := by omega
  rw [remaining, hread, hlength]

/-- **A turn that goes on leaves less to do**, when the data decides. -/
theorem remaining_lt (hz : Inflates z format data) (hdecides : format.Decides data)
    {s s' : Inflating σ} (hs : Reached z data s) (h : turn z s = .again s') :
    remaining format data s' < remaining format data s := by
  obtain ⟨n, hreads, hnext⟩ := hs
  obtain ⟨hon, rfl, -⟩ := turn_again ⟨n, hreads, hnext⟩ h
  rw [hnext] at hon ⊢
  generalize hr : z.inflate s.stream (data.drop n) kChunk = r at hon ⊢
  have hlater : Reads z data r.next (n + r.consumed) (s.out ++ r.stored) := by
    subst hr
    exact hreads.call hon
  have hle : n + r.consumed ≤ data.length := reads_le hz hlater
  have hstored := (hz.stored_prefix hlater).length_le
  have hprogress : 0 < r.consumed ∨ r.stored ≠ [] := by
    subst hr
    rcases hz.progress hreads hon with hpos | hne | ⟨hcode, -⟩
    · exact .inl hpos
    · exact .inr hne
    · by_contra hnone
      obtain ⟨hconsumed, hempty⟩ := not_or.mp hnone
      exact hz.wanting hreads hcode (by omega) (not_not.mp hempty) hdecides
  rw [remaining_eq hz hreads hnext, remaining_eq hz hlater (List.drop_drop ..),
    Prod.Lex.toLex_lt_toLex]
  rw [List.length_append] at hstored
  by_cases hconsumed : 0 < r.consumed
  · left
    dsimp only
    omega
  · right
    obtain hne := hprogress.resolve_left hconsumed
    have hpos := List.length_pos_iff.mpr hne
    have hsame : n + r.consumed = n := by omega
    rw [hsame] at hstored ⊢
    refine ⟨rfl, ?_⟩
    dsimp only
    rw [List.length_append]
    omega

/-- **A loop that ends** has come to the end of a stream, or to bytes that are given up. -/
theorem run_turn (hz : Inflates z format data) {s : Inflating σ} (hs : Reached z data s)
    {fuel : ℕ} {result : Except String Bytes}
    (h : DoWhile.run (turn z) fuel s = some result) :
    format.Decides data ∧ FullOrError format data result :=
  DoWhile.run_spec (Reached z data) (fun _ _ hs hturn => (turn_again hs hturn).2.2)
    (fun _ _ hs hturn => turn_done hz hs hturn) hs h

theorem decompress_eq_run {stream : σ} (hinit : z.inflateInit2 = some stream) (fuel : ℕ)
    (data : Bytes) : decompress z fuel data =
      DoWhile.run (turn z) fuel { stream, nextIn := availIn data, out := [] } := by
  rw [decompress, hinit]

/-- **What `Gzip::decompress` returns**, if it does. -/
theorem decompress_some (hz : Inflates z format (availIn data)) {fuel : ℕ}
    {result : Except String Bytes} (h : decompress z fuel data = some result) :
    (z.inflateInit2 = none ∨ format.Decides (availIn data)) ∧ FullOrError format data result := by
  cases hinit : z.inflateInit2 with
  | none =>
    rw [decompress, hinit] at h
    obtain rfl := Option.some.inj h
    exact ⟨.inl rfl, nofun⟩
  | some stream =>
    rw [decompress_eq_run hinit] at h
    obtain ⟨hdecides, hfull⟩ := run_turn hz ⟨0, .init hinit, rfl⟩ h
    refine ⟨.inr hdecides, ?_⟩
    intro out hout
    obtain ⟨front, hfront, hcomplete⟩ := hfull out hout
    exact ⟨front, hfront.trans (List.take_prefix _ _), hcomplete⟩

/-- **`Gzip::decompress` returns** when the data that the library is offered decides. -/
theorem exists_decompress (hz : Inflates z format (availIn data))
    (h : z.inflateInit2 = none ∨ format.Decides (availIn data)) :
    ∃ fuel result, decompress z fuel data = some result := by
  cases hinit : z.inflateInit2 with
  | none =>
    have hfailed : decompress z 0 data = some (.error "inflateInit2 failed") := by
      rw [decompress, hinit]
    exact ⟨0, _, hfailed⟩
  | some stream =>
    have hdecides := h.resolve_left (by simp [hinit])
    have hstart : Reached z (availIn data) { stream, nextIn := availIn data, out := [] } :=
      ⟨0, .init hinit, rfl⟩
    obtain ⟨fuel, result, hrun⟩ := DoWhile.exists_run (Reached z (availIn data))
      (remaining format (availIn data))
      (fun s s' hs h => ⟨(turn_again hs h).2.2, remaining_lt hz hdecides hs h⟩) hstart
    exact ⟨fuel, result, (decompress_eq_run hinit fuel data).trans hrun⟩

/-- **`Gzip::decompress` ends**, with the full output or an exception, just when `inflateInit2`
fails or the data that the library is offered decides. -/
theorem finishes_iff (hz : Inflates z format (availIn data)) :
    Finishes z format data ↔ z.inflateInit2 = none ∨ format.Decides (availIn data) := by
  constructor
  · rintro ⟨fuel, result, h, -⟩
    exact (decompress_some hz h).1
  · intro h
    obtain ⟨fuel, result, hrun⟩ := exists_decompress hz h
    exact ⟨fuel, result, hrun, (decompress_some hz hrun).2⟩

/-! ### Truncated streams -/

/-- The front of a stream decides nothing. -/
theorem not_decides_of_truncated {whole : Bytes} (hwhole : format.Complete whole)
    (hsound : ∀ front, front <+: whole → ¬format.Refused front) (hdata : data <+: whole)
    (hne : data ≠ whole) : ¬format.Decides data := by
  rintro ⟨front, hfront, hcomplete | hrefused⟩
  · obtain rfl := format.complete_alone hcomplete hwhole (hfront.trans hdata)
    exact hne (hdata.eq_of_length_le hfront.length_le)
  · exact hsound front (hfront.trans hdata) hrefused

/-- **A truncated stream** keeps `Gzip::decompress` busy for ever. -/
theorem decompress_of_truncated (hz : Inflates z format (availIn data))
    (hinit : z.inflateInit2 ≠ none) {whole : Bytes} (hwhole : format.Complete whole)
    (hsound : ∀ front, front <+: whole → ¬format.Refused front)
    (hdata : availIn data <+: whole) (hne : availIn data ≠ whole) (fuel : ℕ) :
    decompress z fuel data = none := by
  by_contra hsome
  obtain ⟨result, hresult⟩ := Option.ne_none_iff_exists'.mp hsome
  rcases (decompress_some hz hresult).1 with hfailed | hdecides
  · exact hinit hfailed
  · exact not_decides_of_truncated hwhole hsound hdata hne hdecides

/-! ### A letter -/

/-- The letter `a` in a stored block. -/
def letterStream : Bytes :=
  [0x78, 0x01, 0x01, 0x01, 0x00, 0xfe, 0xff, 0x61, 0x00, 0x62, 0x00, 0x62]

/-- What the first bytes of it decode to. -/
def letterDecoded (read : ℕ) : Bytes := if 8 ≤ read then [0x61] else []

def letterFormat : StreamFormat where
  Complete bytes := bytes = letterStream
  Refused bytes := ¬bytes <+: letterStream ∧ ¬letterStream <+: bytes
  decoded bytes := letterDecoded bytes.length
  complete_alone := by
    rintro a b rfl rfl _
    rfl

/-- A library that reads this stream alone. Its state is the number of bytes read. -/
def letterZlib : Zlib ℕ where
  inflateInit2 := some 0
  inflate n input _ :=
    let stored (read : ℕ) := (letterDecoded (n + read)).drop (letterDecoded n).length
    if letterStream.drop n <+: input then
      let read := letterStream.length - n
      ⟨.streamEnd, read, stored read, n + read⟩
    else if input = [] then ⟨.bufError, 0, [], n⟩
    else if input <+: letterStream.drop n then
      ⟨.ok, input.length, stored input.length, n + input.length⟩
    else ⟨.dataError, input.length, [], n + input.length⟩

theorem letterDecoded_append {n n' : ℕ} (h : n ≤ n') :
    letterDecoded n ++ (letterDecoded n').drop (letterDecoded n).length = letterDecoded n' := by
  unfold letterDecoded
  by_cases hn : 8 ≤ n
  · rw [if_pos hn, if_pos (hn.trans h)]
    rfl
  · rw [if_neg hn]
    rfl

/-- What the library has read is the front of its stream. -/
structure ReadsLetter (data : Bytes) (s n : ℕ) (out : Bytes) : Prop where
  state : s = n
  read_le : n ≤ data.length
  front : data.take n <+: letterStream
  out : out = letterDecoded n

theorem ReadsLetter.take {data out : Bytes} {s n : ℕ} (h : ReadsLetter data s n out) :
    data.take n = letterStream.take n := by
  have hread := List.prefix_iff_eq_take.mp h.front
  rwa [List.length_take_of_le h.read_le] at hread

/-- **What a call does**: the data holds the stream, or is at its end, or goes on with the stream to
its own end, or differs from it. -/
theorem ReadsLetter.call {data out : Bytes} {s n : ℕ} (h : ReadsLetter data s n out) (room : ℕ) :
    let r := letterZlib.inflate s (data.drop n) room
    n + r.consumed ≤ data.length ∧ r.next = n + r.consumed ∧
      (r.ret = .dataError ∨ out ++ r.stored = letterDecoded (n + r.consumed)) ∧
      (r.ret = .streamEnd ∧ letterStream <+: data ∧ n + r.consumed = letterStream.length ∨
        r.ret = .bufError ∧ r.consumed = 0 ∧ data <+: letterStream ∧ ¬letterStream <+: data ∨
        r.ret = .ok ∧ 0 < r.consumed ∧ data <+: letterStream ∨
        r.ret = .dataError ∧ n + r.consumed = data.length ∧
          ¬data <+: letterStream ∧ ¬letterStream <+: data) := by
  have hsplit : letterStream.take n ++ data.drop n = data := by
    rw [← h.take, List.take_append_drop]
  have hstream := List.take_append_drop n letterStream
  have hfront : data.drop n <+: letterStream.drop n ↔ data <+: letterStream := by
    rw [← List.prefix_append_right_inj (letterStream.take n), hsplit, hstream]
  have hholds : letterStream.drop n <+: data.drop n ↔ letterStream <+: data := by
    rw [← List.prefix_append_right_inj (letterStream.take n), hsplit, hstream]
  have hlength : (data.drop n).length = data.length - n := List.length_drop
  have hread : n ≤ letterStream.length := by
    have hle := h.front.length_le
    rwa [List.length_take_of_le h.read_le] at hle
  obtain ⟨rfl, hle, hsame, rfl⟩ := h
  have hstored (k : ℕ) := letterDecoded_append (Nat.le_add_right s k)
  simp only [letterZlib, hfront, hholds]
  split_ifs with hend hnone hon
  · have hlonger := hend.length_le
    refine ⟨?_, rfl, .inr (hstored _), .inl ⟨rfl, hend, ?_⟩⟩
    · dsimp only
      omega
    · dsimp only
      omega
  · rw [hnone, List.length_nil] at hlength
    rw [List.take_of_length_le (by omega)] at hsame
    exact ⟨hle, rfl, .inr (List.append_nil _), .inr (.inl ⟨rfl, rfl, hsame, hend⟩)⟩
  · have hpos := List.length_pos_iff.mpr hnone
    refine ⟨?_, rfl, .inr (hstored _), .inr (.inr (.inl ⟨rfl, hpos, hon⟩))⟩
    dsimp only
    omega
  · refine ⟨?_, rfl, .inl rfl, .inr (.inr (.inr ⟨rfl, ?_, hon, hend⟩))⟩
    · dsimp only
      omega
    · dsimp only
      omega

theorem readsLetter {data out : Bytes} {s n : ℕ} (h : Reads letterZlib data s n out) :
    ReadsLetter data s n out := by
  induction h with
  | init h =>
    obtain rfl := Option.some.inj h
    exact ⟨rfl, Nat.zero_le _, List.nil_prefix, rfl⟩
  | @call s n out _ hon ih =>
    obtain ⟨hle, hnext, hstored, hcases⟩ := ih.call kChunk
    have hread := ih.front
    generalize letterZlib.inflate s (data.drop n) kChunk = r at hon hle hnext hstored hcases ⊢
    have hout := hstored.resolve_left fun h => hon.1 (.inr (.inl h))
    refine ⟨hnext, hle, ?_, hout⟩
    rcases hcases with ⟨hcode, -⟩ | ⟨-, hnone, -⟩ | ⟨-, -, hfront⟩ | ⟨hcode, -⟩
    · exact absurd hcode hon.2
    · rwa [hnone]
    · exact (List.take_prefix _ _).trans hfront
    · exact absurd (.inr (.inl hcode)) hon.1

/-- **The library keeps its promises**, whatever the data. -/
theorem letterZlib_inflates (data : Bytes) : Inflates letterZlib letterFormat data where
  consumed_le := by
    intro s n out h
    obtain ⟨hle, -⟩ := (readsLetter h).call kChunk
    rw [List.length_drop]
    omega
  stored_prefix := by
    intro s n out h
    obtain ⟨-, hle, -, rfl⟩ := readsLetter h
    change _ <+: letterDecoded _
    rw [List.length_take_of_le hle]
  progress := by
    intro s n out h r hon
    obtain ⟨-, hnext, -, ⟨hcode, -⟩ | ⟨hcode, hnone, -⟩ | ⟨-, hpos, -⟩ | ⟨hcode, -⟩⟩ :=
      (readsLetter h).call kChunk
    · exact absurd hcode hon.2
    · refine .inr (.inr ⟨.inl hcode, ?_⟩)
      rw [hnext, hnone]
      exact (readsLetter h).state.symm
    · exact .inl hpos
    · exact absurd (.inr (.inl hcode)) hon.1
  wanting := by
    intro s n out h r hcode hconsumed _
    obtain ⟨-, -, -, hcases⟩ := (readsLetter h).call kChunk
    have hwants : data <+: letterStream ∧ ¬letterStream <+: data := by
      grind
    rintro ⟨front, hfront, rfl | hrefused⟩
    · exact hwants.2 hfront
    · exact hrefused.1 (hfront.trans hwants.1)
  streamEnd := by
    intro s n out h r hcode
    obtain ⟨hle, -, hstored, hcases⟩ := (readsLetter h).call kChunk
    have hend : letterStream <+: data ∧ n + r.consumed = letterStream.length := by
      grind
    have hout : out ++ r.stored = letterDecoded (n + r.consumed) := by
      grind
    refine ⟨?_, ?_⟩
    · rw [hend.2]
      exact (List.prefix_iff_eq_take.mp hend.1).symm
    · rw [hout]
      change _ = letterDecoded _
      rw [List.length_take_of_le hle]
  error := by
    intro s n out h r herror
    obtain ⟨hle, -, -, hcases⟩ := (readsLetter h).call kChunk
    have hdiffers : n + r.consumed = data.length ∧
        ¬data <+: letterStream ∧ ¬letterStream <+: data := by
      unfold isError at herror
      grind
    rw [hdiffers.1, List.take_length]
    exact hdiffers.2

/-- The letter is decompressed. -/
theorem finishes_iff_of_letter :
    (Finishes letterZlib letterFormat letterStream ↔
      letterZlib.inflateInit2 = none ∨ letterFormat.Decides (availIn letterStream)) ∧
        letterFormat.Decides (availIn letterStream) :=
  ⟨finishes_iff (letterZlib_inflates _), letterStream, by decide, .inl rfl⟩

/-- The first byte of the stream alone keeps the loop busy for ever. -/
theorem not_finishes_truncated :
    ¬∀ (z : Zlib ℕ) (format : StreamFormat) (data : Bytes),
      Inflates z format (availIn data) → Finishes z format data := by
  intro hall
  obtain ⟨fuel, result, h, -⟩ := hall letterZlib letterFormat [0x78] (letterZlib_inflates _)
  have hcomplete : letterFormat.Complete letterStream := rfl
  have hnone : decompress letterZlib fuel [0x78] = none :=
    decompress_of_truncated (letterZlib_inflates _) nofun hcomplete
      (fun _ hfront hrefused => hrefused.1 hfront) (by decide) (by decide) fuel
  rw [hnone] at h
  cases h

end Gzip

end XNetty
