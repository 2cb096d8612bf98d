import XNetty.Http.LazyParsing
import XNetty.Util.Gzip

/-!
# Request bodies that are decompressed

`GzipHandler`, `DeflateHandler` and `CompressorHandler` decompress the body of a request that names
a coding before they pass it on. A body that is cut off holds up the worker.

## Main definitions

* `decompressAndForward` — what the three handlers do with a request.
* `decompressAndForward_iff` — when the request goes on.
-/

namespace XNetty

variable {σ : Type*}

/-- The value that `decompressAndForward` looks at. -/
def HttpRequest.contentEncoding (r : HttpRequest) : Bytes :=
  (r.header (ascii "Content-Encoding")).1

/-- What `channelRead` of `GzipHandler`, `DeflateHandler` and `CompressorHandler` passes on, as far
as so many turns of the loop go. An exception is thrown out of the handler. -/
def decompressAndForward (z : Zlib σ) (fuel : ℕ) (r : HttpRequest) :
    Option (Except String HttpRequest) :=
  let ce := r.contentEncoding
  let r := (r.header (ascii "Content-Encoding")).2
  if ce ≠ [] ∧ (ascii "gzip" <:+: ce ∨ ascii "deflate" <:+: ce) then
    let r' := r.ensureBodyParsed
    if r.body = [] then some (.ok r')
    else (Gzip.decompress z fuel r.body).map (Except.map r'.setBody)
  else some (.ok r)

/-- The body is decompressed. -/
def HttpRequest.Encoded (r : HttpRequest) : Prop :=
  (ascii "gzip" <:+: r.contentEncoding ∨ ascii "deflate" <:+: r.contentEncoding) ∧ r.body ≠ []

/-- Looking for a header leaves the body as it is. -/
theorem HttpRequest.body_header (r : HttpRequest) (key : Bytes) :
    (r.header key).2.body = r.body := by
  change r.ensureHeadersParsed.ensureBodyParsed.content = r.ensureBodyParsed.content
  rw [content_ensureBodyParsed, content_ensureBodyParsed, ensureHeadersParsed_eq]

theorem decompressAndForward_of_encoded (z : Zlib σ) (fuel : ℕ) {r : HttpRequest}
    (h : r.Encoded) : decompressAndForward z fuel r =
      (Gzip.decompress z fuel r.body).map
        (Except.map (r.header (ascii "Content-Encoding")).2.ensureBodyParsed.setBody) := by
  obtain ⟨hcoding, hbody⟩ := h
  have hsome : r.contentEncoding ≠ [] := by
    intro hnone
    rw [hnone] at hcoding
    revert hcoding
    decide
  unfold decompressAndForward
  dsimp only
  rw [if_pos ⟨hsome, hcoding⟩, HttpRequest.body_header, if_neg hbody]

/-- Any other request is forwarded at once. -/
theorem decompressAndForward_of_not (z : Zlib σ) (fuel : ℕ) {r : HttpRequest}
    (h : ¬r.Encoded) : ∃ r', decompressAndForward z fuel r = some (.ok r') := by
  unfold decompressAndForward
  dsimp only
  split_ifs with hcoding hbody
  · exact ⟨_, rfl⟩
  · rw [HttpRequest.body_header] at hbody
    exact absurd ⟨hcoding.2, hbody⟩ h
  · exact ⟨_, rfl⟩

/-- **A request is forwarded**, or an exception thrown, just when its body need not be decompressed
or `Gzip::decompress` ends. -/
theorem decompressAndForward_iff {z : Zlib σ} {format : StreamFormat} {r : HttpRequest}
    (hz : Inflates z format (Gzip.availIn r.body)) :
    (∃ fuel result, decompressAndForward z fuel r = some result) ↔
      (r.Encoded → z.inflateInit2 = none ∨ format.Decides (Gzip.availIn r.body)) := by
  constructor
  · rintro ⟨fuel, result, h⟩ hencoded
    rw [decompressAndForward_of_encoded z fuel hencoded] at h
    obtain ⟨body, hbody, -⟩ := Option.map_eq_some_iff.mp h
    exact (Gzip.decompress_some hz hbody).1
  · intro h
    by_cases hencoded : r.Encoded
    · obtain ⟨fuel, result, hrun⟩ := Gzip.exists_decompress hz (h hencoded)
      have hforwarded := decompressAndForward_of_encoded z fuel hencoded
      rw [hrun] at hforwarded
      exact ⟨fuel, _, hforwarded⟩
    · obtain ⟨r', hforwarded⟩ := decompressAndForward_of_not z 0 hencoded
      exact ⟨0, _, hforwarded⟩

end XNetty
