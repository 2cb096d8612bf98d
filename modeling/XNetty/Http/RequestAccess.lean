import XNetty.Http.Request
import XNetty.Http.Response

/-!
# Reading and editing a request

The accessors of a request parse what they need when they are first called, and its setters edit the
parsed headers and body, or what they will be parsed from.

## Main definitions

* `parseQuery` — the parameters of a URI.
* `HttpRequest.Call`, `HttpRequest.perform` — the calls on a request, with their answers.
-/

namespace XNetty

/-! ### Queries -/

/-- The loop of `ensureQueryParsed`; `rest` is the query from `start` on. -/
def queryLoop : ℕ → Bytes → StringMap → StringMap
  | 0, _, queries => queries
  | fuel + 1, rest, queries =>
    if rest = [] then queries
    else
      let part := rest.takeWhile (· ≠ 38)
      queryLoop fuel (rest.drop (part.length + 1))
        (if 61 ∈ part then
          queries.insert (part.takeWhile (· ≠ 61)) (part.dropWhile (· ≠ 61)).tail
        else queries)

/-- The parameters behind the first `?` are added to the map. -/
def queryInto (uri : Bytes) (queries : StringMap) : StringMap :=
  match uri.dropWhile (· ≠ 63) with
  | [] => queries
  | _ :: qs => queryLoop qs.length qs queries

def parseQuery (uri : Bytes) : StringMap := queryInto uri ∅

theorem lookup_insert_or (name value : Bytes) (queries : StringMap) (k : Bytes) :
    (queries.insert name value).lookup k =
      ((Finmap.insert name value ∅ : StringMap).lookup k).or (queries.lookup k) := by
  by_cases hk : k = name
  · subst hk
    simp
  · rw [Finmap.lookup_insert_of_ne _ hk, Finmap.lookup_insert_of_ne _ hk, Finmap.lookup_empty,
      Option.none_or]

/-- A parameter is found among those of the query, else where it was before. -/
theorem lookup_queryLoop (fuel : ℕ) (rest : Bytes) (queries : StringMap) (k : Bytes) :
    (queryLoop fuel rest queries).lookup k =
      ((queryLoop fuel rest ∅).lookup k).or (queries.lookup k) := by
  induction fuel generalizing rest queries with
  | zero => simp [queryLoop]
  | succ fuel ih =>
    unfold queryLoop
    by_cases hrest : rest = []
    · simp [hrest]
    simp only [if_neg hrest]
    by_cases hpart : 61 ∈ rest.takeWhile (· ≠ 38)
    · simp only [if_pos hpart]
      rw [ih _ (queries.insert _ _), ih _ (Finmap.insert _ _ ∅), Option.or_assoc,
        lookup_insert_or]
    · simp only [if_neg hpart]
      exact ih _ queries

theorem lookup_queryInto (uri : Bytes) (queries : StringMap) (k : Bytes) :
    (queryInto uri queries).lookup k = ((parseQuery uri).lookup k).or (queries.lookup k) := by
  unfold parseQuery queryInto
  split
  · simp
  · exact lookup_queryLoop _ _ queries k

/-- What a query is parsed over leaves no trace when the query names all of it. -/
theorem queryInto_eq_iff (uri : Bytes) (queries : StringMap) :
    queryInto uri queries = parseQuery uri ↔ queries.keys ⊆ (parseQuery uri).keys := by
  constructor
  · intro h k hk
    rw [← h, Finmap.mem_keys, ← Finmap.lookup_isSome, lookup_queryInto]
    rw [Finmap.mem_keys, ← Finmap.lookup_isSome] at hk
    simp [hk]
  · intro h
    apply Finmap.ext_lookup
    intro k
    rw [lookup_queryInto]
    by_cases hk : k ∈ queries
    · have hnamed : k ∈ parseQuery uri := Finmap.mem_keys.mp (h (Finmap.mem_keys.mpr hk))
      obtain ⟨v, hv⟩ := Option.isSome_iff_exists.mp (Finmap.lookup_isSome.mpr hnamed)
      rw [hv, Option.some_or]
    · rw [Finmap.lookup_eq_none.mpr hk, Option.or_none]

/-- Parsing a query once more adds nothing. -/
theorem queryInto_parseQuery (uri : Bytes) : queryInto uri (parseQuery uri) = parseQuery uri :=
  (queryInto_eq_iff uri _).mpr subset_rfl

namespace HttpRequest

variable (r : HttpRequest)

def ensureQueryParsed : HttpRequest :=
  if r.queryParsed then r
  else { r with queryParsed := true, queries := queryInto r.uri r.queries }

/-- `setHeader`: the first header of that key is overwritten, else one is added and the headers
count as parsed. -/
def setHeader (key value : Bytes) : HttpRequest :=
  if r.headers.any fun kv => kv.1 = key then { r with headers := putHeader key value r.headers }
  else { r with headers := r.headers ++ [(key, value)], headersParsed := true }

def setBody (body : Bytes) : HttpRequest :=
  { r.ensureBodyParsed with content := body, bodyParsed := true, contentLength := body.length }

/-- The calls on a request. -/
inductive Call where
  | setUri (uri : Bytes)
  | setRawData (data : Bytes) (totalLen : ℕ) (offsets : List HeaderEntry) (headerEnd : ℕ)
  | setHeader (key value : Bytes)
  | setBody (body : Bytes)
  | header (key : Bytes)
  | hasHeader (key : Bytes)
  | query (key : Bytes)
  | hasQuery (key : Bytes)
  | body
  deriving DecidableEq

/-- What a call returns. -/
inductive Result where
  | nothing
  | text (value : Bytes)
  | found (yes : Bool)
  deriving DecidableEq

/-- A call, with the request it leaves behind. -/
def perform : Call → Result × HttpRequest
  | .setUri uri => (.nothing, r.setUri uri)
  | .setRawData data totalLen offsets headerEnd =>
    (.nothing, r.setRawData data totalLen offsets headerEnd)
  | .setHeader key value => (.nothing, r.setHeader key value)
  | .setBody body => (.nothing, r.setBody body)
  | .header key => (.text (r.header key).1, (r.header key).2)
  | .hasHeader key =>
    (.found (findHeader r.ensureHeadersParsed.headers key).isSome, r.ensureHeadersParsed)
  | .query key => (.text ((r.ensureQueryParsed.queries.lookup key).getD []), r.ensureQueryParsed)
  | .hasQuery key => (.found (r.ensureQueryParsed.queries.lookup key).isSome, r.ensureQueryParsed)
  | .body => (.text r.ensureBodyParsed.content, r.ensureBodyParsed)

end HttpRequest

end XNetty
