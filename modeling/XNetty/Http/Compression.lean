import XNetty.Http.Codings

/-!
# Responses that are compressed

`GzipHandler`, `DeflateHandler` and `CompressorHandler` replace the body of a response on its way
out and put the coding under `Content-Encoding`. They leave a `Content-Length` that was set
before, and overwrite a `Content-Encoding` that was.

## Main definitions

* `Compressing` — the three handlers.
* `Preserved` — what goes out has its length announced, and decodes to what the response was.
* `Replaceable` — the responses whose body can be replaced so.
-/

namespace XNetty

/-- A handler that compresses; `CompressorHandler` with a peer that accepts a coding. -/
inductive Compressing where
  | gzipHandler
  | deflateHandler
  | compressorHandler (encoding : ContentEncoding)

namespace Compressing

def coding : Compressing → ContentEncoding
  | .gzipHandler => .gzip
  | .deflateHandler => .deflate
  | .compressorHandler encoding => encoding

/-- The `write` of each handler. -/
def write (compress : ContentEncoding → Bytes → Bytes) : Compressing → Msg → Msg
  | .gzipHandler => CompressorHandler.compressAndForward compress .gzip (ascii "gzip")
  | .deflateHandler => CompressorHandler.compressAndForward compress .deflate (ascii "deflate")
  | .compressorHandler encoding =>
    CompressorHandler.write compress { supportsCompression := true, encoding }

theorem write_eq (compress : ContentEncoding → Bytes → Bytes) (handler : Compressing) :
    handler.write compress =
      CompressorHandler.compressAndForward compress handler.coding handler.coding.name := by
  cases handler with
  | gzipHandler => rfl
  | deflateHandler => rfl
  | compressorHandler encoding => cases encoding <;> rfl

end Compressing

/-- The response that goes out. -/
def HttpResponse.compressed (r : HttpResponse) (compress : ContentEncoding → Bytes → Bytes)
    (enc : ContentEncoding) : HttpResponse :=
  if r.body = [] then r
  else (r.setContent (compress enc r.body)).setHeader (ascii "Content-Encoding") enc.name

/-- **What the handlers emit**, behind the codec: the text of that response. -/
theorem write_response (compress : ContentEncoding → Bytes → Bytes) (handler : Compressing)
    (r : HttpResponse) : HttpServerCodec.write (handler.write compress (.response r)) =
      .buffer (r.compressed compress handler.coding).toByteBuf := by
  rw [Compressing.write_eq, HttpResponse.compressed, CompressorHandler.compressAndForward]
  split <;> rfl

/-! ### What a recipient sees -/

/-- The values of the `Content-Length` fields. -/
def contentLengths (kvs : List (Bytes × Bytes)) : List (Option ℕ) :=
  (kvs.filter (NameIs contentLengthName ·)).map fun kv => Lines.number (Reader.trim kv.2)

theorem contentLengths_append (kvs kvs' : List (Bytes × Bytes)) :
    contentLengths (kvs ++ kvs') = contentLengths kvs ++ contentLengths kvs' := by
  simp [contentLengths]

/-- Every `Content-Length` field of the response, and there is one, says how long its body is. -/
def HttpResponse.LengthTold (r : HttpResponse) : Prop :=
  contentLengths r.fields ≠ [] ∧ ∀ length ∈ contentLengths r.fields, length = some r.body.length

/-- With every codec, what goes out has its length told and decodes to what the response does. -/
def Preserved (enc : ContentEncoding) (r : HttpResponse) : Prop :=
  ∀ codec : Codec,
    (r.compressed codec.compress enc).LengthTold ∧
      codec.decodeAll (codings (r.compressed codec.compress enc).fields)
          (r.compressed codec.compress enc).body =
        codec.decodeAll (codings r.fields) r.body

/-- The entry that `setHeader("Content-Encoding", ..)` overwrites, if there is one, lists no
coding, and whatever is listed behind it is the new coding. -/
def Appends (enc : ContentEncoding) (kvs : List (Bytes × Bytes)) : Prop :=
  ∀ before kv after, kvs = before ++ kv :: after → kv.1 = ascii "Content-Encoding" →
    (∀ kv' ∈ before, kv'.1 ≠ ascii "Content-Encoding") →
      elements kv.2 = [] ∧ ∀ c ∈ codings after, c = enc.name

/-- A response without body has its length told; one with a body has no length set, and its
codings can be appended to. -/
def Replaceable (enc : ContentEncoding) (r : HttpResponse) : Prop :=
  if r.body = [] then r.LengthTold
  else (∀ kv ∈ r.headers, ¬ NameIs contentLengthName kv) ∧ Appends enc r.headers

/-! ### The headers -/

/-- Other names keep their entries. -/
theorem filter_putHeader {name key : Bytes} (hother : key.map toLower ≠ name) (value : Bytes)
    (kvs : List (Bytes × Bytes)) :
    (putHeader key value kvs).filter (NameIs name ·) = kvs.filter (NameIs name ·) := by
  have hnew (v : Bytes) : ¬ NameIs name (key, v) := hother
  induction kvs with
  | nil => simp [putHeader, hnew]
  | cons kv kvs ih =>
    rw [putHeader]
    split
    · rename_i hkey
      obtain ⟨k, v⟩ := kv
      obtain rfl : k = key := hkey
      simp [hnew]
    · rw [List.filter_cons, List.filter_cons, ih]

theorem putHeader_of_first {key : Bytes} {before : List (Bytes × Bytes)} {kv : Bytes × Bytes}
    (hkv : kv.1 = key) (hbefore : ∀ kv' ∈ before, kv'.1 ≠ key) (value : Bytes)
    (after : List (Bytes × Bytes)) :
    putHeader key value (before ++ kv :: after) = before ++ (key, value) :: after := by
  induction before with
  | nil => exact if_pos hkv
  | cons first before ih =>
    obtain ⟨hfirst, hbefore⟩ := List.forall_mem_cons.mp hbefore
    rw [List.cons_append, putHeader, if_neg hfirst, ih hbefore]
    rfl

theorem putHeader_of_none {key : Bytes} {kvs : List (Bytes × Bytes)}
    (hnone : ∀ kv ∈ kvs, kv.1 ≠ key) (value : Bytes) :
    putHeader key value kvs = kvs ++ [(key, value)] := by
  induction kvs with
  | nil => rfl
  | cons kv kvs ih =>
    obtain ⟨hkv, hnone⟩ := List.forall_mem_cons.mp hnone
    rw [putHeader, if_neg hkv, ih hnone]
    rfl

/-- The first entry of a name, if there is one. -/
theorem first_or_none (key : Bytes) (kvs : List (Bytes × Bytes)) :
    (∃ before kv after, kvs = before ++ kv :: after ∧ kv.1 = key ∧
      ∀ kv' ∈ before, kv'.1 ≠ key) ∨ ∀ kv ∈ kvs, kv.1 ≠ key := by
  induction kvs with
  | nil => exact .inr fun kv h => absurd h List.not_mem_nil
  | cons kv kvs ih =>
    by_cases hkey : kv.1 = key
    · exact .inl ⟨[], kv, kvs, rfl, hkey, fun kv' h => absurd h List.not_mem_nil⟩
    · rcases ih with ⟨before, kv', after, rfl, hkv', hbefore⟩ | hnone
      · exact .inl ⟨kv :: before, kv', after, rfl, hkv', List.forall_mem_cons.mpr ⟨hkey, hbefore⟩⟩
      · exact .inr (List.forall_mem_cons.mpr ⟨hkey, hnone⟩)

theorem codings_eq_nil {kvs : List (Bytes × Bytes)}
    (hother : ∀ kv ∈ kvs, ¬ NameIs contentEncodingName kv) : codings kvs = [] := by
  rw [codings, List.filter_eq_nil_iff.mpr fun kv hkv => by simpa using hother kv hkv]
  rfl

theorem codings_name (enc : ContentEncoding) (kvs : List (Bytes × Bytes)) :
    codings ((ascii "Content-Encoding", enc.name) :: kvs) = enc.name :: codings kvs := by
  have hown : codings [(ascii "Content-Encoding", enc.name)] = [enc.name] := by
    cases enc <;> decide +kernel
  rw [← List.singleton_append, codings_append, hown]
  rfl

theorem codings_exact {kv : Bytes × Bytes} (hkv : kv.1 = ascii "Content-Encoding")
    (kvs : List (Bytes × Bytes)) : codings (kv :: kvs) = elements kv.2 ++ codings kvs := by
  have hname : NameIs contentEncodingName kv := by
    rw [NameIs, hkv]
    decide
  simp [codings, hname]

namespace HttpResponse

variable {r : HttpResponse}

theorem codings_fields (r : HttpResponse) : codings r.fields = codings r.headers := by
  have hown : codings r.ownFields = [] := by
    have hnames : (ascii "Content-Length").map toLower ≠ contentEncodingName ∧
        (ascii "Content-Type").map toLower ≠ contentEncodingName ∧
        (ascii "Connection").map toLower ≠ contentEncodingName := by decide
    apply codings_eq_nil
    intro kv hkv
    simp only [ownFields, List.mem_append, List.mem_ite_nil_right, List.mem_singleton] at hkv
    rcases hkv with (⟨-, rfl⟩ | ⟨-, rfl⟩) | ⟨-, rfl⟩
    · exact hnames.1
    · exact hnames.2.1
    · exact hnames.2.2
  rw [fields, codings_append, hown, List.append_nil]

theorem contentLengths_fields (r : HttpResponse) : contentLengths r.fields =
    contentLengths r.headers ++
      if r.contentLengthSet = false ∧ r.body ≠ [] then [some r.body.length] else [] := by
  have hlength : contentLengths [(ascii "Content-Length", ascii (toString r.body.length))] =
      [some r.body.length] := by
    have hname : NameIs contentLengthName
        (ascii "Content-Length", ascii (toString r.body.length)) :=
      show (ascii "Content-Length").map toLower = contentLengthName by decide
    rw [contentLengths, List.filter_singleton, decide_eq_true hname, cond_true,
      List.map_singleton, Reader.trim_eq (isBlank_toString _), ascii_toString,
      Lines.number_decimal]
  have htype : contentLengths (if !r.contentTypeSet && r.body.length > 0 then
      [(ascii "Content-Type", ascii "text/plain")] else []) = [] := by
    split
    · decide
    · rfl
  have hconnection : contentLengths (if !r.connectionSet then
      [(ascii "Connection", if r.keepAlive then ascii "keep-alive" else ascii "close")] else [])
      = [] := by
    cases r.connectionSet <;> cases r.keepAlive <;> decide
  rw [fields, ownFields, contentLengths_append, contentLengths_append, contentLengths_append,
    htype, hconnection, List.append_nil, List.append_nil]
  cases hset : r.contentLengthSet with
  | true => simp [contentLengths]
  | false =>
    by_cases hbody : r.body = []
    · simp [hbody, contentLengths]
    · rw [if_pos (by simpa [List.length_pos_iff] using hbody), if_pos ⟨rfl, hbody⟩, hlength]

/-- The body is not empty, so it is replaced. -/
theorem compressed_eq {compress : ContentEncoding → Bytes → Bytes} {enc : ContentEncoding}
    (hbody : r.body ≠ []) : r.compressed compress enc =
      (r.setContent (compress enc r.body)).setHeader (ascii "Content-Encoding") enc.name :=
  if_neg hbody

/-- The lengths that go out: those that were set, and the right one if none was. -/
theorem contentLengths_compressed (codec : Codec) (enc : ContentEncoding) (hbody : r.body ≠ []) :
    contentLengths (r.compressed codec.compress enc).fields = contentLengths r.headers ++
      if r.contentLengthSet then [] else [some (codec.compress enc r.body).length] := by
  have hother : (ascii "Content-Encoding").map toLower ≠ contentLengthName := by decide
  have hheaders : contentLengths (putHeader (ascii "Content-Encoding") enc.name r.headers) =
      contentLengths r.headers := by
    rw [contentLengths, filter_putHeader hother]
    rfl
  rw [compressed_eq hbody, contentLengths_fields]
  change contentLengths (putHeader (ascii "Content-Encoding") enc.name r.headers) ++
    (if r.contentLengthSet = false ∧ codec.compress enc r.body ≠ [] then
      [some (codec.compress enc r.body).length] else []) = _
  rw [hheaders]
  cases r.contentLengthSet <;> simp [codec.compress_ne_nil]

theorem codings_compressed {compress : ContentEncoding → Bytes → Bytes} (enc : ContentEncoding)
    (hbody : r.body ≠ []) : codings (r.compressed compress enc).fields =
      codings (putHeader (ascii "Content-Encoding") enc.name r.headers) := by
  rw [compressed_eq hbody, codings_fields]
  rfl

end HttpResponse

/-! ### Responses that are built -/

theorem putHeader_mem (key value : Bytes) (kvs : List (Bytes × Bytes)) :
    (key, value) ∈ putHeader key value kvs := by
  induction kvs with
  | nil => exact List.mem_singleton.mpr rfl
  | cons kv kvs ih =>
    rw [putHeader]
    split
    · exact List.mem_cons_self
    · exact List.mem_cons_of_mem _ ih

/-- Once there is a header of some name, there is one. -/
theorem exists_nameIs_putHeader {name : Bytes} {kvs : List (Bytes × Bytes)}
    (h : ∃ kv ∈ kvs, NameIs name kv) (key value : Bytes) :
    ∃ kv ∈ putHeader key value kvs, NameIs name kv := by
  by_cases hkey : key.map toLower = name
  · exact ⟨(key, value), putHeader_mem key value kvs, hkey⟩
  · obtain ⟨kv, hkv, hname⟩ := h
    have hmem : kv ∈ kvs.filter (NameIs name ·) :=
      List.mem_filter.mpr ⟨hkv, decide_eq_true hname⟩
    rw [← filter_putHeader hkey value] at hmem
    exact ⟨kv, (List.mem_filter.mp hmem).1, hname⟩

/-- A length that was set is among the headers. -/
theorem contentLength_of_set (setters : List Setter)
    (hset : (HttpResponse.build setters).contentLengthSet = true) :
    ∃ kv ∈ (HttpResponse.build setters).headers, NameIs contentLengthName kv := by
  induction setters using List.reverseRecOn with
  | nil => cases hset
  | append_singleton setters setter ih =>
    rw [HttpResponse.build, List.foldl_append] at hset ⊢
    cases setter with
    | setStatus status => exact ih hset
    | setHeader key value => exact exists_nameIs_putHeader (ih hset) key value
    | setContentType type => exact exists_nameIs_putHeader (ih hset) _ _
    | setContentLength =>
      exact ⟨_, putHeader_mem _ _ _,
        show (ascii "Content-Length").map toLower = contentLengthName by decide⟩
    | setContent body => exact ih hset

namespace Codec

/-- Bytes in front of the data, and off again. -/
def padded (n : ℕ) : Codec where
  compress _ data := List.replicate (n + 1) 0 ++ data
  decode _ data := some (data.drop (n + 1))
  decode_compress := fun _ _ => by simp
  compress_ne_nil := fun _ _ => by simp

end Codec

namespace HttpResponse

variable {r : HttpResponse} {enc : ContentEncoding}

/-- A length that was set is wrong for one of two codecs. -/
theorem not_lengthTold (hbody : r.body ≠ []) {kv : Bytes × Bytes} (hkv : kv ∈ r.headers)
    (hname : NameIs contentLengthName kv) :
    ¬ ∀ codec : Codec, (r.compressed codec.compress enc).LengthTold := by
  intro htold
  have hlength (n : ℕ) :
      Lines.number (Reader.trim kv.2) = some ((Codec.padded n).compress enc r.body).length := by
    have hmem : Lines.number (Reader.trim kv.2) ∈
        contentLengths (r.compressed (Codec.padded n).compress enc).fields := by
      rw [contentLengths_compressed _ enc hbody]
      exact List.mem_append_left _
        (List.mem_map.mpr ⟨kv, List.mem_filter.mpr ⟨hkv, decide_eq_true hname⟩, rfl⟩)
    have hbody' : (r.compressed (Codec.padded n).compress enc).body =
        (Codec.padded n).compress enc r.body := by
      rw [compressed_eq hbody]
      rfl
    rw [← hbody']
    exact (htold (Codec.padded n)).2 _ hmem
  have hboth := (hlength 0).symm.trans (hlength 1)
  simp [Codec.padded] at hboth

/-- What replacing the body does to the codings, with all codecs. -/
theorem decodes_iff (hbody : r.body ≠ []) :
    (∀ codec : Codec, codec.decodeAll (codings (r.compressed codec.compress enc).fields)
        (r.compressed codec.compress enc).body = codec.decodeAll (codings r.fields) r.body) ↔
      Appends enc r.headers := by
  have hcompressed (codec : Codec) :
      (r.compressed codec.compress enc).body = codec.compress enc r.body := by
    rw [compressed_eq hbody]
    rfl
  simp only [hcompressed, codings_compressed enc hbody, codings_fields]
  have hreplaced {before kv after} (hheaders : r.headers = before ++ kv :: after)
      (hkv : kv.1 = ascii "Content-Encoding")
      (hbefore : ∀ kv' ∈ before, kv'.1 ≠ ascii "Content-Encoding") :
      (∀ codec : Codec, codec.decodeAll
          (codings (putHeader (ascii "Content-Encoding") enc.name r.headers))
          (codec.compress enc r.body) = codec.decodeAll (codings r.headers) r.body) ↔
        elements kv.2 = [] ∧ ∀ c ∈ codings after, c = enc.name := by
    have hcodings : codings (before ++ kv :: after) =
        codings before ++ elements kv.2 ++ codings after := by
      rw [codings_append, codings_exact hkv, List.append_assoc]
    rw [hheaders, putHeader_of_first hkv hbefore, codings_append, codings_name, hcodings,
      decodeAll_replace_iff hbody]
  constructor
  · exact fun h before kv after hheaders hkv hbefore => (hreplaced hheaders hkv hbefore).mp h
  · intro happends
    rcases first_or_none (ascii "Content-Encoding") r.headers with
      ⟨before, kv, after, hheaders, hkv, hbefore⟩ | hnone
    · exact (hreplaced hheaders hkv hbefore).mpr (happends before kv after hheaders hkv hbefore)
    · intro codec
      rw [putHeader_of_none hnone, codings_append, codings_name]
      exact (codec.decodeAll_concat _ _ _).trans
        (by rw [codec.decode_compress, Option.bind_some])

end HttpResponse

theorem preserved_iff {r : HttpResponse} (enc : ContentEncoding)
    (hset : r.contentLengthSet = true → ∃ kv ∈ r.headers, NameIs contentLengthName kv) :
    Preserved enc r ↔ Replaceable enc r := by
  rw [Replaceable, Preserved]
  by_cases hbody : r.body = []
  · -- an empty body goes out as it is
    have hsame (codec : Codec) : r.compressed codec.compress enc = r := if_pos hbody
    simp only [hsame, if_pos hbody, and_true]
    exact ⟨fun h => h (Codec.padded 0), fun h _ => h⟩
  · rw [if_neg hbody, forall_and, HttpResponse.decodes_iff hbody]
    refine and_congr_left fun _ => ⟨fun htold kv hkv hname => ?_, fun hnone codec => ?_⟩
    · exact HttpResponse.not_lengthTold hbody hkv hname htold
    · have hunset : r.contentLengthSet = false := by
        by_contra hne
        obtain ⟨kv, hkv, hname⟩ := hset (Bool.eq_true_of_not_eq_false hne)
        exact hnone kv hkv hname
      have hheaders : contentLengths r.headers = [] := by
        rw [contentLengths, List.filter_eq_nil_iff.mpr fun kv hkv => by simpa using hnone kv hkv]
        rfl
      rw [HttpResponse.LengthTold, HttpResponse.contentLengths_compressed codec enc hbody,
        HttpResponse.compressed_eq hbody, hheaders, hunset]
      exact ⟨List.cons_ne_nil _ _, fun length hlength => List.mem_singleton.mp hlength⟩

/-- **When compression preserves a response.** What a handler emits is the text of a response,
and this one has its length told and decodes to the same body, whatever the codec, exactly when
the body could be replaced. -/
theorem write_preserved_iff (handler : Compressing) (setters : List Setter) :
    (∀ compress, HttpServerCodec.write
        (handler.write compress (.response (HttpResponse.build setters))) =
      .buffer ((HttpResponse.build setters).compressed compress handler.coding).toByteBuf) ∧
    (Preserved handler.coding (HttpResponse.build setters) ↔
      Replaceable handler.coding (HttpResponse.build setters)) :=
  ⟨fun compress => write_response compress handler _,
    preserved_iff handler.coding (contentLength_of_set setters)⟩

/-- A page whose length was set: the client is told of two bytes and gets three. -/
theorem not_preserved_contentLength :
    ¬ Preserved Compressing.gzipHandler.coding
      (HttpResponse.build [.setContent (ascii "hi"), .setContentLength]) := by
  intro h
  have htold := (h (Codec.padded 0)).1.2
  exact absurd htold (by decide +kernel)

end XNetty
