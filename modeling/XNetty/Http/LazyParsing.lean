import XNetty.Http.RequestAccess
import XNetty.Lib.Transcript

/-!
# Parsing on first access

A request parses its headers, its query and its body when they are first asked for. Seen through
its calls it should be a request that parses at once; it is one as long as no setter meets
something that is still unparsed or left over.

## Main definitions

* `ParsedRequest` — the request that parses when its data is attached or its URI set.
* `HttpRequest.parsed` — a request with all of its parsing done.
* `HttpRequest.Unnoticed` — the calls that do not tell the two apart.
-/

namespace XNetty

/-- The body of attached data. -/
def rawBody (data : Bytes) (totalLen headerEnd contentLength : ℕ) : Bytes :=
  if headerEnd = 0 then []
  else if contentLength > 0 ∧ headerEnd + contentLength ≤ totalLen then
    substr data headerEnd contentLength
  else if headerEnd < totalLen then substr data headerEnd (totalLen - headerEnd)
  else []

/-- What a request holds once everything is parsed. -/
structure ParsedRequest where
  uri : Bytes := []
  headers : List (Bytes × Bytes) := []
  queries : StringMap := ∅
  body : Bytes := []
  contentLength : ℕ := 0

/-- The calls on a request that parses at once. Reading changes nothing. -/
def ParsedRequest.perform (e : ParsedRequest) :
    HttpRequest.Call → HttpRequest.Result × ParsedRequest
  | .setUri uri => (.nothing, { e with uri := uri, queries := parseQuery uri })
  | .setRawData data totalLen offsets headerEnd =>
    (.nothing, { e with
      headers := offsets.map (HttpRequest.readHeader data)
      body := rawBody data totalLen headerEnd e.contentLength })
  | .setHeader key value => (.nothing, { e with headers := putHeader key value e.headers })
  | .setBody body => (.nothing, { e with body := body, contentLength := body.length })
  | .header key => (.text ((HttpRequest.findHeader e.headers key).getD []), e)
  | .hasHeader key => (.found (HttpRequest.findHeader e.headers key).isSome, e)
  | .query key => (.text ((e.queries.lookup key).getD []), e)
  | .hasQuery key => (.found (e.queries.lookup key).isSome, e)
  | .body => (.text e.body, e)

/-! ### Setting one header -/

theorem putHeader_append_of_mem {key : Bytes} {kvs : List (Bytes × Bytes)}
    (h : key ∈ kvs.map Prod.fst) (value : Bytes) (more : List (Bytes × Bytes)) :
    putHeader key value (kvs ++ more) = putHeader key value kvs ++ more := by
  induction kvs with
  | nil => exact absurd h List.not_mem_nil
  | cons kv kvs ih =>
    rw [List.cons_append, putHeader, putHeader]
    split_ifs with hkey
    · rfl
    · rw [ih ((List.mem_cons.mp h).resolve_left fun heq => hkey heq.symm), List.cons_append]

theorem putHeader_append_of_not_mem {key : Bytes} {kvs : List (Bytes × Bytes)}
    (h : key ∉ kvs.map Prod.fst) (value : Bytes) (more : List (Bytes × Bytes)) :
    putHeader key value (kvs ++ more) = kvs ++ putHeader key value more := by
  induction kvs with
  | nil => rfl
  | cons kv kvs ih =>
    obtain ⟨hkv, hkvs⟩ := not_or.mp (mt List.mem_cons.mpr h)
    rw [List.cons_append, putHeader, if_neg fun heq => hkv heq.symm, ih hkvs, List.cons_append]

theorem putHeader_eq_singleton_iff (key value : Bytes) (kvs : List (Bytes × Bytes)) :
    putHeader key value kvs = [(key, value)] ↔ kvs = [] ∨ kvs.map Prod.fst = [key] := by
  cases kvs with
  | nil => simp [putHeader]
  | cons kv kvs =>
    rw [putHeader]
    split_ifs with hkey
    · simp [hkey]
    · have hne : kv ≠ (key, value) := fun h => hkey (congrArg Prod.fst h)
      simp [hkey, hne]

theorem find?_putHeader_of_ne {key k : Bytes} (hk : k ≠ key) (value : Bytes)
    (kvs : List (Bytes × Bytes)) :
    (putHeader key value kvs).find? (fun kv => decide (kv.1 = k)) =
      kvs.find? fun kv => decide (kv.1 = k) := by
  induction kvs with
  | nil => simp [putHeader, hk.symm]
  | cons kv kvs ih =>
    rw [putHeader]
    split_ifs with hkey
    · have hother : ¬kv.1 = k := fun h => hk (h.symm.trans hkey)
      simp [hk.symm, hother]
    · rw [List.find?_cons, List.find?_cons, ih]

namespace HttpRequest

open Transcript Ledger

variable (r : HttpRequest)

def parsed : ParsedRequest where
  uri := r.uri
  headers := r.ensureHeadersParsed.headers
  queries := r.ensureQueryParsed.queries
  body := r.ensureBodyParsed.content
  contentLength := r.contentLength

/-- A call answers from what is parsed by then. -/
theorem perform_fst (c : Call) : (r.perform c).1 = (r.parsed.perform c).1 := by
  cases c <;> rfl

/-! ### The three parts -/

/-- The headers of the attached data that wait to be parsed. -/
def unparsed : List (Bytes × Bytes) :=
  if r.headersParsed then []
  else (r.rawData.map fun data => r.headerOffsets.map (readHeader data)).getD []

variable {r}

theorem headers_ensureHeadersParsed :
    r.ensureHeadersParsed.headers = r.headers ++ r.unparsed := by
  unfold ensureHeadersParsed unparsed
  cases r.rawData <;> split_ifs <;> simp_all

theorem queries_ensureQueryParsed : r.ensureQueryParsed.queries =
    if r.queryParsed then r.queries else queryInto r.uri r.queries := by
  unfold ensureQueryParsed
  split_ifs <;> rfl

/-- A body that the attached data does not replace stays. -/
theorem content_ensureBodyParsed : r.ensureBodyParsed.content =
    if r.bodyParsed = false ∧ r.headerEnd ≠ 0 ∧ r.headerEnd < r.rawDataLen then
      (r.rawData.map fun data =>
        rawBody data r.rawDataLen r.headerEnd r.contentLength).getD r.content
    else r.content := by
  unfold ensureBodyParsed rawBody
  cases r.rawData <;> grind

variable (r)

theorem parsed_eq : r.parsed = ⟨r.uri, r.headers ++ r.unparsed,
    if r.queryParsed then r.queries else queryInto r.uri r.queries,
    if r.bodyParsed = false ∧ r.headerEnd ≠ 0 ∧ r.headerEnd < r.rawDataLen then
      (r.rawData.map fun data =>
        rawBody data r.rawDataLen r.headerEnd r.contentLength).getD r.content
    else r.content, r.contentLength⟩ := by
  rw [parsed, headers_ensureHeadersParsed, queries_ensureQueryParsed, content_ensureBodyParsed]

/-- Whatever happens to the headers, the query and the body are parsed as before. -/
theorem parsed_withHeaders (done : Bool) (headers : List (Bytes × Bytes)) :
    ({ r with headersParsed := done, headers := headers } : HttpRequest).parsed =
      { r.parsed with
        headers := headers ++ ({ r with headersParsed := done } : HttpRequest).unparsed } := by
  rw [parsed_eq, parsed_eq]
  rfl

theorem parsed_withQuery (uri path : Bytes) (done : Bool) (queries : StringMap) :
    ({ r with uri := uri, path := path, queryParsed := done, queries := queries } :
        HttpRequest).parsed =
      { r.parsed with
        uri := uri
        queries := if done then queries else queryInto uri queries } := by
  rw [parsed_eq, parsed_eq]
  rfl

theorem parsed_withBody (content : Bytes) (contentLength : ℕ) :
    ({ r with bodyParsed := true, content := content, contentLength := contentLength } :
        HttpRequest).parsed =
      { r.parsed with body := content, contentLength := contentLength } := by
  rw [parsed_eq, parsed_eq]
  rfl

/-! ### Reading -/

theorem ensureQueryParsed_eq :
    r.ensureQueryParsed =
      { r with queryParsed := true, queries := r.ensureQueryParsed.queries } := by
  unfold ensureQueryParsed
  split
  next h => simp [← h]
  next => rfl

theorem ensureBodyParsed_eq :
    r.ensureBodyParsed = { r with bodyParsed := true, content := r.ensureBodyParsed.content } := by
  unfold ensureBodyParsed
  split
  next h => simp [← h]
  next =>
    split
    · rfl
    · split_ifs <;> rfl

theorem parsed_ensureHeadersParsed : r.ensureHeadersParsed.parsed = r.parsed := by
  have hnone : ({ r with headersParsed := true } : HttpRequest).unparsed = [] := rfl
  rw [ensureHeadersParsed_eq, parsed_withHeaders, hnone, List.append_nil]
  rfl

theorem parsed_ensureQueryParsed : r.ensureQueryParsed.parsed = r.parsed := by
  rw [ensureQueryParsed_eq, parsed_withQuery]
  rfl

theorem parsed_ensureBodyParsed : r.ensureBodyParsed.parsed = r.parsed := by
  rw [ensureBodyParsed_eq, parsed_withBody]
  rfl

/-- The calls that only read. -/
def Call.Reads : Call → Prop
  | .header _ | .hasHeader _ | .query _ | .hasQuery _ | .body => True
  | .setUri _ | .setRawData .. | .setHeader .. | .setBody _ => False

theorem parsed_of_reads {c : Call} (h : c.Reads) : (r.perform c).2.parsed = r.parsed := by
  cases c with
  | header | hasHeader => exact parsed_ensureHeadersParsed r
  | query | hasQuery => exact parsed_ensureQueryParsed r
  | body => exact parsed_ensureBodyParsed r
  | setUri | setRawData | setHeader | setBody => exact h.elim

/-- **The order in which accessors are called never matters**: each answers what it would answer
if it were called first. -/
theorem transcript_reads {reads : List Call} (h : ∀ c ∈ reads, c.Reads) :
    transcript perform r reads = reads.map fun c => (r.perform c).1 :=
  transcript_of_keeping perform_fst (fun c hc s => parsed_of_reads s (h c hc)) r

/-! ### Editing -/

/-- The calls behind which a request still holds what one that parses at once would hold. -/
def Unnoticed : Call → Prop
  -- Parameters that are parsed stay, and those left over from before are overwritten only where
  -- the new query names them.
  | .setUri uri =>
    if r.queryParsed then parseQuery uri = parseQuery r.uri
    else r.queries.keys ⊆ (parseQuery uri).keys
  -- The headers from before stay, and the body where no new one is there.
  | .setRawData _ totalLen _ headerEnd =>
    r.headers = [] ∧ (r.content = [] ∨ headerEnd ≠ 0 ∧ headerEnd < totalLen)
  -- A header that is new is taken for a sign that the others have been parsed.
  | .setHeader key _ =>
    r.unparsed = [] ∨ key ∈ r.headers.map Prod.fst ∨ r.unparsed.map Prod.fst = [key]
  | _ => True

instance : (c : Call) → Decidable (r.Unnoticed c)
  | .setUri uri => inferInstanceAs (Decidable (if r.queryParsed then
      parseQuery uri = parseQuery r.uri else r.queries.keys ⊆ (parseQuery uri).keys))
  | .setRawData _ totalLen _ headerEnd => inferInstanceAs (Decidable (r.headers = [] ∧
      (r.content = [] ∨ headerEnd ≠ 0 ∧ headerEnd < totalLen)))
  | .setHeader key _ => inferInstanceAs (Decidable (r.unparsed = [] ∨
      key ∈ r.headers.map Prod.fst ∨ r.unparsed.map Prod.fst = [key]))
  | .setBody _ | .header _ | .hasHeader _ | .query _ | .hasQuery _ | .body => .isTrue trivial

variable {r}

theorem setHeader_eq (key value : Bytes) :
    r.setHeader key value = { r with
      headersParsed := r.headersParsed || decide (key ∉ r.headers.map Prod.fst)
      headers := putHeader key value r.headers } := by
  unfold setHeader
  by_cases h : key ∈ r.headers.map Prod.fst
  · rw [if_pos (by simpa using h)]
    simp [h]
  · have hput := putHeader_append_of_not_mem h value []
    rw [if_neg (by simpa using h)]
    simp_all [putHeader]

/-- Behind the call either all that was unparsed still is, or nothing is. -/
theorem parsed_setHeader (key value : Bytes) :
    (r.setHeader key value).parsed = { r.parsed with
      headers := putHeader key value r.headers ++
        if key ∈ r.headers.map Prod.fst then r.unparsed else [] } := by
  rw [setHeader_eq, parsed_withHeaders]
  unfold unparsed
  split_ifs <;> simp_all

/-- Setting a header edits what is parsed, unless it hides other headers that are not. -/
theorem parsed_setHeader_iff (key value : Bytes) :
    (r.setHeader key value).parsed =
        { r.parsed with headers := putHeader key value r.parsed.headers } ↔
      r.Unnoticed (.setHeader key value) := by
  have hheaders : r.parsed.headers = r.headers ++ r.unparsed := headers_ensureHeadersParsed
  rw [parsed_setHeader, ParsedRequest.mk.injEq, hheaders]
  simp only [true_and, and_true, Unnoticed]
  by_cases h : key ∈ r.headers.map Prod.fst
  · rw [if_pos h, putHeader_append_of_mem h]
    exact iff_of_true rfl (Or.inr (Or.inl h))
  · have hput := putHeader_append_of_not_mem h value []
    rw [List.append_nil] at hput
    rw [if_neg h, putHeader_append_of_not_mem h, hput, List.append_nil, List.append_cancel_left_eq,
      eq_comm, putHeader, putHeader_eq_singleton_iff]
    simp [h]

/-- **Setting one header hides no other** as long as it goes unnoticed. -/
theorem header_setHeader_of_ne {key value k : Bytes} (h : r.Unnoticed (.setHeader key value))
    (hk : k ≠ key) (hmem : k ∈ r.parsed.headers.map Prod.fst) :
    ((r.setHeader key value).header k).1 = (r.header k).1 := by
  have hparsed := congrArg ParsedRequest.headers ((parsed_setHeader_iff key value).mpr h)
  obtain ⟨kv, hkv, hname⟩ := List.mem_map.mp hmem
  obtain ⟨found, hfound⟩ : ∃ found,
      (r.parsed.headers.find? fun kv => decide (kv.1 = k)) = some found :=
    Option.isSome_iff_exists.mp (List.find?_isSome.mpr ⟨kv, hkv, decide_eq_true hname⟩)
  change (findHeader (r.setHeader key value).parsed.headers k).getD [] =
    (findHeader r.parsed.headers k).getD []
  rw [hparsed]
  simp only [findHeader, find?_putHeader_of_ne hk, hfound]

theorem parsed_setBody (body : Bytes) :
    (r.setBody body).parsed = { r.parsed with body := body, contentLength := body.length } := by
  unfold setBody
  rw [parsed_withBody, parsed_ensureBodyParsed]

theorem queries_parsed :
    r.parsed.queries = if r.queryParsed then r.queries else queryInto r.uri r.queries :=
  queries_ensureQueryParsed

/-- The parameters that are parsed by now, or would be if they were asked for, are those of the
URI. -/
def QueryCurrent (r : HttpRequest) : Prop := r.parsed.queries = parseQuery r.uri

/-- Parsing the query anew changes nothing. -/
theorem queryInto_queries (hcurrent : r.QueryCurrent) :
    queryInto r.uri r.queries = r.parsed.queries := by
  rw [QueryCurrent] at hcurrent
  rw [hcurrent]
  rw [queries_parsed] at hcurrent
  split_ifs at hcurrent
  · rw [hcurrent]
    exact queryInto_parseQuery r.uri
  · exact hcurrent

/-- Behind a new URI the query is parsed as if it were the first. -/
theorem parsed_setUri_iff (hcurrent : r.QueryCurrent) (uri : Bytes) :
    (r.setUri uri).parsed = { r.parsed with uri := uri, queries := parseQuery uri } ↔
      r.Unnoticed (.setUri uri) := by
  have hparts : (r.setUri uri).parsed =
      { r.parsed with
        uri := uri
        queries := if r.queryParsed then r.queries else queryInto uri r.queries } :=
    r.parsed_withQuery uri (uri.takeWhile (· ≠ 63)) r.queryParsed r.queries
  rw [hparts, ParsedRequest.mk.injEq]
  simp only [and_true, true_and, Unnoticed]
  rw [QueryCurrent, queries_parsed] at hcurrent
  split_ifs with hdone
  · rw [if_pos hdone] at hcurrent
    rw [hcurrent, eq_comm]
  · exact queryInto_eq_iff uri r.queries

/-- Everything held before is still there when the data is parsed. -/
theorem parsed_setRawData (data : Bytes) (totalLen : ℕ) (offsets : List HeaderEntry)
    (headerEnd : ℕ) : (r.setRawData data totalLen offsets headerEnd).parsed =
      ⟨r.uri, r.headers ++ offsets.map (readHeader data), queryInto r.uri r.queries,
        if headerEnd ≠ 0 ∧ headerEnd < totalLen then
          rawBody data totalLen headerEnd r.contentLength
        else r.content, r.contentLength⟩ := by
  rw [parsed_eq]
  simp [setRawData, unparsed]

theorem rawBody_eq_nil {data : Bytes} {totalLen headerEnd contentLength : ℕ}
    (h : ¬(headerEnd ≠ 0 ∧ headerEnd < totalLen)) :
    rawBody data totalLen headerEnd contentLength = [] := by
  unfold rawBody
  split_ifs <;> first | rfl | omega

/-- Attached data is parsed as if it were the first, unless something is left over. -/
theorem parsed_setRawData_iff (hcurrent : r.QueryCurrent) (data : Bytes) (totalLen : ℕ)
    (offsets : List HeaderEntry) (headerEnd : ℕ) :
    (r.setRawData data totalLen offsets headerEnd).parsed =
        { r.parsed with
          headers := offsets.map (readHeader data)
          body := rawBody data totalLen headerEnd r.contentLength } ↔
      r.Unnoticed (.setRawData data totalLen offsets headerEnd) := by
  rw [parsed_setRawData, queryInto_queries hcurrent, ParsedRequest.mk.injEq]
  simp only [parsed, and_true, true_and, Unnoticed, List.append_left_eq_self]
  by_cases h : headerEnd ≠ 0 ∧ headerEnd < totalLen
  · simp [h]
  · simp [h, rawBody_eq_nil h]

/-! ### Runs -/

/-- One call: what is parsed behind it is what parsing at once gives exactly for the calls that go
unnoticed. -/
theorem parsed_perform_iff (hcurrent : r.QueryCurrent) (c : Call) :
    (r.perform c).2.parsed = (r.parsed.perform c).2 ↔ r.Unnoticed c := by
  cases c with
  | setUri uri => exact parsed_setUri_iff hcurrent uri
  | setRawData data totalLen offsets headerEnd =>
    exact parsed_setRawData_iff hcurrent data totalLen offsets headerEnd
  | setHeader key value => exact parsed_setHeader_iff key value
  | setBody body => exact iff_of_true (parsed_setBody body) trivial
  | header | hasHeader => exact iff_of_true (parsed_ensureHeadersParsed r) trivial
  | query | hasQuery => exact iff_of_true (parsed_ensureQueryParsed r) trivial
  | body => exact iff_of_true (parsed_ensureBodyParsed r) trivial

theorem queryCurrent_perform (hcurrent : r.QueryCurrent) {c : Call} (h : r.Unnoticed c) :
    (r.perform c).2.QueryCurrent := by
  have hparsed := (parsed_perform_iff hcurrent c).mpr h
  change (r.perform c).2.parsed.queries = parseQuery (r.perform c).2.parsed.uri
  rw [hparsed]
  cases c with
  | setUri uri => rfl
  | _ => exact hcurrent

/-- **The condition is exact**: at every moment a request holds what one that parses at once holds
just when each of its calls goes unnoticed. -/
theorem parsed_foldl_iff (hcurrent : r.QueryCurrent) (calls : List Call) :
    (∀ done, done <+: calls → (done.foldl (next perform) r).parsed =
        done.foldl (next ParsedRequest.perform) r.parsed) ↔
      Along (next perform) Unnoticed r calls :=
  view_foldl_iff QueryCurrent (fun _ c hs => parsed_perform_iff hs c)
    (fun _ _ hs h => queryCurrent_perform hs h) hcurrent calls

/-- **Parsing on first access is unobservable** in a run whose calls go unnoticed. -/
theorem transcript_eager (m : HttpMethod) (v : HttpVersion) (p : StringMap) (calls : List Call)
    (h : Along (next perform) Unnoticed { method := m, version := v, params := p } calls) :
    transcript perform { method := m, version := v, params := p } calls =
      transcript ParsedRequest.perform {} calls := by
  have hcurrent : ({ method := m, version := v, params := p } : HttpRequest).QueryCurrent := rfl
  refine transcript_eq (fun s t => s.QueryCurrent ∧ t = s.parsed) ?_ ⟨hcurrent, rfl⟩ h
  rintro s t c ⟨hs, rfl⟩ hc
  exact ⟨perform_fst s c, queryCurrent_perform hs hc, ((parsed_perform_iff hs c).mpr hc).symm⟩

/-- A request with the headers `Host` and `Accept` and a body of two bytes. -/
def hostRequest : Call :=
  .setRawData (ascii "GET /?a=1 HTTP/1.1\r\nHost: x\r\nAccept: y\r\n\r\nhi") 44
    [⟨20, 4, 1⟩, ⟨29, 6, 1⟩] 42

/-- Reading a header first makes setting one harmless. -/
theorem transcript_eager_hostRequest :
    transcript perform { method := .get, version := .http11, params := ∅ }
        [.setUri (ascii "/?a=1"), hostRequest, .header (ascii "accept"),
          .setHeader (ascii "X") (ascii "1"), .header (ascii "Host"), .query (ascii "a"), .body] =
      transcript ParsedRequest.perform {}
        [.setUri (ascii "/?a=1"), hostRequest, .header (ascii "accept"),
          .setHeader (ascii "X") (ascii "1"), .header (ascii "Host"), .query (ascii "a"), .body] :=
  transcript_eager .get .http11 ∅ _ (by decide +kernel)

/-- Setting a header before any is read hides `Host`. -/
theorem not_transcript_eager :
    transcript perform {}
        [hostRequest, .setHeader (ascii "X") (ascii "1"), .header (ascii "Host")] ≠
      transcript ParsedRequest.perform {}
        [hostRequest, .setHeader (ascii "X") (ascii "1"), .header (ascii "Host")] := by
  decide +kernel

end HttpRequest

end XNetty
