import Mathlib.Data.List.TakeWhile
import XNetty.Lib.Lines
import XNetty.Http.Rejection
import XNetty.Http.Fields

/-!
# Requests with their bodies

A request as it is sent, with a body that is framed by a length or in chunks, and the header list
that the codec makes of it. The codec reads a value from two bytes behind the name of its header.

## Main definitions

* `MessageBody.FramedBy` — the header lines say where the body ends.
* `SentRequest` — a request with its body as it is sent.
* `SentRequest.read` — the header list as the codec reads it.
* `HttpServerCodec.overLimit_of_oneBlank`, `HttpServerCodec.not_overLimit_chunked` — when it says
  that the body is too long.
-/

namespace XNetty

/-! ## Bodies -/

def hexDigit (b : UInt8) : Option ℕ :=
  if 48 ≤ b ∧ b ≤ 57 then some (b.toNat - 48)
  else if 65 ≤ b ∧ b ≤ 70 then some (b.toNat - 55)
  else if 97 ≤ b ∧ b ≤ 102 then some (b.toNat - 87)
  else none

/-- The hexadecimal number at the front of a chunk's first line. -/
def chunkSize (line : Bytes) : ℕ :=
  ((line.takeWhile fun b => (hexDigit b).isSome).filterMap hexDigit).foldl (fun n d => n * 16 + d) 0

/-- A chunk, with its first line as it was written. -/
structure Chunk where
  line : Bytes
  data : Bytes
  size_eq : chunkSize line = data.length
  data_ne : data ≠ []

def Chunk.text (c : Chunk) : Bytes := c.line ++ crlf ++ c.data ++ crlf

/-- A message body as it is sent. -/
inductive MessageBody where
  | none
  | contentLength (content : Bytes)
  /-- Chunks, the line of the last, empty one, and trailers. -/
  | chunked (chunks : List Chunk) (last : Bytes) (trailers : List HeaderLine)

namespace MessageBody

/-- What stands in front of the trailers. -/
def front : MessageBody → Bytes
  | none => []
  | contentLength content => content
  | chunked chunks last _ => chunks.flatMap Chunk.text ++ last ++ crlf

def trailers : MessageBody → List HeaderLine
  | chunked _ _ trailers => trailers
  | _ => []

/-- What stands behind the trailers. -/
def back : MessageBody → Bytes
  | chunked _ _ _ => crlf
  | _ => []

def text (b : MessageBody) : Bytes := b.front ++ (b.trailers.flatMap HeaderLine.text ++ b.back)

/-- The length of the message body, which for a chunked one is that of its data. -/
def size : MessageBody → ℕ
  | none => 0
  | contentLength content => content.length
  | chunked chunks _ _ => (chunks.map fun c => c.data.length).sum

/-- The header lines frame the body: by a length in decimal digits, or in chunks. -/
def FramedBy (headers : List HeaderLine) : MessageBody → Prop
  | none => ∀ h ∈ headers, h.name.map toLower ≠ contentLengthName ∧
      h.name.map toLower ≠ transferEncodingName
  | contentLength content =>
    (∃ h ∈ headers, h.name.map toLower = contentLengthName) ∧
      (∀ h ∈ headers, h.name.map toLower = contentLengthName →
        Lines.number h.value = some content.length) ∧
      ∀ h ∈ headers, h.name.map toLower ≠ transferEncodingName
  | chunked _ last trailers =>
    (∃ h ∈ headers, h.name.map toLower = transferEncodingName ∧
      ascii "chunked" <:+ h.value.map toLower) ∧
      (∀ h ∈ headers ++ trailers, h.name.map toLower ≠ contentLengthName) ∧ chunkSize last = 0

end MessageBody

/-- A request as it is sent, its header lines in any legal spelling and spacing. -/
structure SentRequest where
  start : Bytes
  target : Bytes
  version : Bytes
  headers : List HeaderLine
  body : MessageBody
  target_ne : target ≠ []
  framed : body.FramedBy headers

namespace SentRequest

variable (rq : SentRequest)

def toText : RequestText :=
  ⟨rq.start, rq.target, rq.version, rq.headers, rq.body.text, rq.target_ne⟩

def text : Bytes := rq.toText.text

/-- What stands in front of the trailers. -/
def front : Bytes := rq.toText.head ++ (crlf ++ rq.body.front)

/-- The parser library reports the spans of the target, the header lines and the trailers. -/
structure FoundBy (t : Parse) : Prop where
  url : t.url = ⟨rq.start.length, rq.target.length⟩
  headers : HeaderLine.Spans rq.toText.line.length rq.headers t.headers
  trailers : HeaderLine.Spans rq.front.length rq.body.trailers t.trailers

/-- The header list as the codec reads it. -/
def read : List (Bytes × Bytes) :=
  (rq.headers ++ rq.body.trailers).map fun h => (h.name, h.readValue)

variable {rq}

theorem FoundBy.readHeaders {t : Parse} (h : rq.FoundBy t) :
    (headerEntries (t.headers ++ t.trailers)).map (HttpRequest.readHeader rq.text) = rq.read := by
  have hfront : rq.text = rq.toText.line ++
      (rq.headers.flatMap HeaderLine.text ++ (crlf ++ rq.body.text)) := by
    rw [text, RequestText.text, RequestText.head, List.append_assoc]
    rfl
  have hback : rq.text = rq.front ++
      (rq.body.trailers.flatMap HeaderLine.text ++ rq.body.back) := by
    simp only [text, front, RequestText.text, List.append_assoc]
    rfl
  have hheaders := @HeaderLine.readHeaders_eq _ _ _ (crlf ++ rq.body.text) _ h.headers rfl
  have htrailers := @HeaderLine.readHeaders_eq _ _ _ rq.body.back _ h.trailers rfl
  rw [← hfront] at hheaders
  rw [← hback] at htrailers
  rw [read, List.map_append, ← hheaders, ← htrailers, headerEntries, List.map_append,
    List.map_append]
  rfl

end SentRequest

namespace HttpServerCodec

open Incremental

variable {codec : HttpServerCodec} {ll : Llhttp}

/-- The header list of a request on its own. -/
theorem ownHeaders_sent {rq : SentRequest} {t : Parse}
    (ht : (ll.execute rq.text).callbacks = t.callbacks) (hfound : rq.FoundBy t) :
    ownHeaders ll rq.text = rq.read := by
  have hheaders := ownHeaders_eq ht {}
  rw [headers_attach, hfound.readHeaders] at hheaders
  exact (List.append_cancel_left hheaders).symm

/-! ## What the codec reads -/

theorem foldl_of_foldlM {bs : Bytes} {m n : ℕ} (h : bs.foldlM Lines.digit m = some n) :
    bs.foldl (fun n c => n * 10 + (c.toNat - 48)) m = n := by
  induction bs generalizing m with
  | nil => exact Option.some.inj h
  | cons b bs ih =>
    rw [List.foldlM_cons] at h
    obtain ⟨m', hb, hrest⟩ := Option.bind_eq_some_iff.mp h
    unfold Lines.digit at hb
    split at hb
    · rw [List.foldl_cons, Option.some.inj hb]
      exact ih hrest
    · cases hb

/-- A number that fits is read as such. -/
theorem announced_of_number {v : Bytes} {n : ℕ} (h : Lines.number v = some n) (hn : n < 2 ^ 64) :
    announced v = n := by
  cases v with
  | nil => cases h
  | cons b bs =>
    have hdigits : ∀ c ∈ b :: bs, 48 ≤ c ∧ c ≤ 57 := fun c hc => Lines.mem_of_foldlM h hc
    obtain ⟨hlow, hhigh⟩ := hdigits b List.mem_cons_self
    have hlow' : 48 ≤ b.toNat := UInt8.le_iff_toNat_le.mp hlow
    have hsigns : b ≠ 43 ∧ b ≠ 45 := by
      constructor <;> rintro rfl <;> simp at hlow'
    have hspace : isSpace b = false := by
      simp only [isSpace, decide_eq_false_iff_not, UInt8.le_iff_toNat_le]
      rintro (rfl | ⟨-, hle⟩)
      · simp at hlow'
      · have : (13 : UInt8).toNat = 13 := rfl
        omega
    have hvalue : digitsValue (b :: bs) = some n := by
      have htake : (b :: bs).takeWhile (fun c => decide (48 ≤ c ∧ c ≤ 57)) = b :: bs :=
        List.takeWhile_eq_self_iff.mpr fun c hc => decide_eq_true (hdigits c hc)
      unfold digitsValue
      rw [htake]
      exact congrArg some (foldl_of_foldlM h)
    have hstoul : stoul (b :: bs) = some n := by
      unfold stoul
      rw [List.dropWhile_cons, hspace]
      simpa [hsigns, hvalue] using hn
    rw [announced, hstoul]
    rfl

theorem findHeader_mem {headers : List (Bytes × Bytes)} {key v : Bytes}
    (h : HttpRequest.findHeader headers key = some v) :
    ∃ kv ∈ headers, kv.1.map toLower = key.map toLower ∧ kv.2 = v := by
  unfold HttpRequest.findHeader at h
  split at h
  next kv hexact =>
    have hname := List.find?_some hexact
    refine ⟨kv, List.mem_of_find?_eq_some hexact, ?_, Option.some.inj h⟩
    rw [of_decide_eq_true hname]
  next =>
    obtain ⟨kv, hcase, rfl⟩ := Option.map_eq_some_iff.mp h
    have hname := List.find?_some hcase
    exact ⟨kv, List.mem_of_find?_eq_some hcase, of_decide_eq_true hname, rfl⟩

theorem findHeader_ne_none {headers : List (Bytes × Bytes)} {key : Bytes} {kv : Bytes × Bytes}
    (hkv : kv ∈ headers) (hname : kv.1.map toLower = key.map toLower) :
    HttpRequest.findHeader headers key ≠ none := by
  unfold HttpRequest.findHeader
  split
  · exact Option.some_ne_none _
  · rw [ne_eq, Option.map_eq_none_iff, List.find?_eq_none]
    intro hnone
    exact hnone kv hkv (decide_eq_true hname)

/-- A body in chunks is announced by nothing. -/
theorem not_overLimit_chunked {rq : SentRequest} {chunks : List Chunk} {last : Bytes}
    {trailers : List HeaderLine} (hbody : rq.body = .chunked chunks last trailers) :
    ¬ codec.OverLimit rq.read := by
  have hframed := rq.framed
  rw [hbody] at hframed
  rintro ⟨-, hsome, -⟩
  unfold contentLength at hsome
  cases hfind : HttpRequest.findHeader rq.read (ascii "Content-Length") with
  | none => simp [hfind] at hsome
  | some v =>
    obtain ⟨kv, hmem, hname, -⟩ := findHeader_mem hfind
    obtain ⟨line, hline, rfl⟩ := List.mem_map.mp hmem
    rw [hbody] at hline
    exact hframed.2.1 line hline hname

/-- A length over the limit behind a single blank is read as it is written. -/
theorem overLimit_of_oneBlank {rq : SentRequest} {content : Bytes}
    (hbody : rq.body = .contentLength content) (hlimit : 0 < codec.maxBodySize)
    (hlong : codec.maxBodySize < content.length) (hfits : content.length < 2 ^ 64)
    (hblank : ∀ h ∈ rq.headers, h.name.map toLower = contentLengthName → h.before.length = 1) :
    codec.OverLimit rq.read := by
  have hframed := rq.framed
  have hread : rq.read = rq.headers.map fun h => (h.name, h.readValue) := by
    rw [SentRequest.read, hbody]
    exact congrArg _ (List.append_nil _)
  rw [hbody] at hframed
  obtain ⟨⟨line, hline, hname⟩, hvalues, -⟩ := hframed
  have hmem : (line.name, line.readValue) ∈ rq.read := by
    rw [hread]
    exact List.mem_map_of_mem hline
  obtain ⟨v, hfind⟩ := Option.ne_none_iff_exists'.mp
    (@findHeader_ne_none _ (ascii "Content-Length") _ hmem hname)
  obtain ⟨kv, hkv, hkey, rfl⟩ := findHeader_mem hfind
  rw [hread] at hkv
  obtain ⟨found, hmem', rfl⟩ := List.mem_map.mp hkv
  -- the line that is found has the length, and it is read as it was written
  have hvalue : found.readValue = found.value :=
    found.readValue_eq_iff.mpr (.inr (hblank found hmem' hkey))
  have hnumber := hvalues found hmem' hkey
  have hcl : contentLength rq.read = found.value := by
    rw [contentLength, hfind, ← hvalue]
    rfl
  refine ⟨hlimit, ?_, ?_⟩
  · rw [hcl]
    rintro hnil
    rw [hnil] at hnumber
    cases hnumber
  · rwa [hcl, announced_of_number hnumber hfits]

end HttpServerCodec

end XNetty
