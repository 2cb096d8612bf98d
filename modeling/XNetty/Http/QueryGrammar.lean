import Mathlib.Data.List.TakeWhile
import XNetty.Http.LazyParsing

/-!
# The grammar of a query

`ensureQueryParsed` looks for the next `&` and for the next `=` from the same place and compares
where it finds them. What it finds are the pieces between the `&`, each cut at its first `=`.

## Main definitions

* `scanQuery` — the scan, place by place.
* `queryPieces`, `Names` — the pieces of a query and what they name.
* `HttpRequest.query_grammar` — what the accessors return.
-/

namespace XNetty

/-- `s.find(c, start)`; `none` is `npos`, behind every place. -/
def findFrom (s : Bytes) (c : UInt8) (start : ℕ) : Option ℕ :=
  ((s.drop start).findIdx? (· = c)).map (start + ·)

/-- The loop of `ensureQueryParsed`; `none` where it still goes on after so many turns. -/
def scanLoop (qs : Bytes) : ℕ → ℕ → StringMap → Option StringMap
  | 0, _, _ => none
  | turns + 1, start, queries =>
    if start < qs.length then
      let amp := (findFrom qs 38 start).getD qs.length
      scanLoop qs turns (amp + 1)
        (match findFrom qs 61 start with
        | some eq =>
          if eq < amp then
            queries.insert (substr qs start (eq - start)) (substr qs (eq + 1) (amp - eq - 1))
          else queries
        | none => queries)
    else some queries

/-- `ensureQueryParsed` on the members that it reads and fills. -/
def scanQuery (turns : ℕ) (uri : Bytes) (queries : StringMap) : Option StringMap :=
  match findFrom uri 63 0 with
  | none => some queries
  | some qpos => scanLoop (uri.drop (qpos + 1)) turns 0 queries

/-! ### Searching -/

theorem findIdx?_eq_takeWhile (xs : Bytes) (c : UInt8) :
    xs.findIdx? (· = c) = if c ∈ xs then some (xs.takeWhile (· ≠ c)).length else none := by
  induction xs with
  | nil => rfl
  | cons x xs ih =>
    rw [List.findIdx?_cons, ih]
    by_cases hx : x = c
    · simp [hx]
    · by_cases hmem : c ∈ xs <;> simp [hx, hmem, Ne.symm hx]

theorem findFrom_eq (s : Bytes) (c : UInt8) (start : ℕ) : findFrom s c start =
    if c ∈ s.drop start then some (start + ((s.drop start).takeWhile (· ≠ c)).length)
    else none := by
  rw [findFrom, findIdx?_eq_takeWhile]
  split_ifs <;> rfl

/-- The `&` is behind the piece, or the query ends there. -/
theorem amp_eq {qs : Bytes} {start : ℕ} (hstart : start < qs.length) :
    (findFrom qs 38 start).getD qs.length =
      start + ((qs.drop start).takeWhile (· ≠ 38)).length := by
  rw [findFrom_eq]
  split_ifs with h
  · rfl
  · have hall : (qs.drop start).takeWhile (· ≠ 38) = qs.drop start :=
      List.takeWhile_eq_self_iff.mpr fun b hb => by
        simp only [decide_eq_true_eq]
        exact fun heq => h (heq ▸ hb)
    rw [hall, List.length_drop, Option.getD_none]
    omega

theorem cut_of_mem {c : UInt8} {part : Bytes} (h : c ∈ part) :
    part = part.takeWhile (· ≠ c) ++ c :: (part.dropWhile (· ≠ c)).tail := by
  induction part with
  | nil => cases h
  | cons x part ih =>
    by_cases hx : x = c
    · simp [hx]
    · have hmem : c ∈ part := (List.mem_cons.mp h).resolve_left fun heq => hx heq.symm
      simpa [hx] using ih hmem

/-- **One turn**: what the two searches find is the piece at the start, cut at its `=`. -/
theorem scan_piece {qs : Bytes} {start : ℕ} (queries : StringMap) :
    let part := (qs.drop start).takeWhile (· ≠ 38)
    (match findFrom qs 61 start with
      | some eq =>
        if eq < start + part.length then
          queries.insert (substr qs start (eq - start))
            (substr qs (eq + 1) (start + part.length - eq - 1))
        else queries
      | none => queries) =
      if 61 ∈ part then
        queries.insert (part.takeWhile (· ≠ 61)) (part.dropWhile (· ≠ 61)).tail
      else queries := by
  intro part
  have hrest : qs.drop start = part ++ (qs.drop start).dropWhile (· ≠ 38) :=
    List.takeWhile_append_dropWhile.symm
  generalize (qs.drop start).dropWhile (· ≠ 38) = behind at hrest
  clear_value part
  rw [findFrom_eq, hrest]
  by_cases hpart : 61 ∈ part
  · have hcut := cut_of_mem hpart
    have hlen := congrArg List.length hcut
    simp only [List.length_append, List.length_cons] at hlen
    have hshort : (part.takeWhile (· ≠ 61)).length ≠ part.length := by omega
    have hfirst : (part ++ behind).takeWhile (· ≠ 61) = part.takeWhile (· ≠ 61) := by
      rw [List.takeWhile_append, if_neg hshort]
    rw [hfirst, if_pos (List.mem_append_left behind hpart), if_pos hpart]
    generalize part.takeWhile (· ≠ 61) = key at hcut hlen ⊢
    generalize (part.dropWhile (· ≠ 61)).tail = value at hcut hlen ⊢
    have heq : start + key.length < start + part.length := by omega
    have hkey : substr qs start (start + key.length - start) = key := by
      rw [substr, hrest, hcut, Nat.add_sub_cancel_left, List.append_assoc, List.take_left]
    have hvalue : substr qs (start + key.length + 1)
        (start + part.length - (start + key.length) - 1) = value := by
      have hcount : start + part.length - (start + key.length) - 1 = value.length := by omega
      have hskip : (key ++ 61 :: value ++ behind).drop (key.length + 1) = value ++ behind := by
        rw [← List.drop_drop, List.append_assoc, List.drop_left]
        rfl
      rw [substr, hcount, Nat.add_assoc, ← List.drop_drop, hrest, hcut, hskip, List.take_left]
    simp only [if_pos heq, hkey, hvalue]
  · rw [if_neg hpart]
    split_ifs with hmem
    · have hall : ∀ b ∈ part, decide (b ≠ 61) = true := fun b hb =>
        decide_eq_true fun heq => hpart (heq ▸ hb)
      have hlater : ¬start + ((part ++ behind).takeWhile (· ≠ 61)).length <
          start + part.length := by
        rw [List.takeWhile_append_of_pos hall, List.length_append]
        omega
      simp only [if_neg hlater]
    · rfl

/-- **The scan** goes on piece by piece, and comes to its end. -/
theorem scanLoop_eq (qs : Bytes) {turns start : ℕ} (hturns : qs.length ≤ turns + start)
    (queries : StringMap) :
    scanLoop qs (turns + 1) start queries = some (queryLoop turns (qs.drop start) queries) := by
  induction turns generalizing start queries with
  | zero =>
    have hend : ¬start < qs.length := by omega
    rw [scanLoop, if_neg hend]
    rfl
  | succ turns ih =>
    unfold scanLoop queryLoop
    by_cases hstart : start < qs.length
    · have hrest : qs.drop start ≠ [] := by
        rw [ne_eq, List.drop_eq_nil_iff]
        omega
      simp only [if_pos hstart, if_neg hrest]
      rw [amp_eq hstart, scan_piece, ih (by omega), List.drop_drop, Nat.add_assoc]
    · have hrest : qs.drop start = [] := List.drop_eq_nil_of_le (by omega)
      rw [if_neg hstart, if_pos hrest]

/-! ### Pieces -/

/-- The pieces of the part behind the first `?`. -/
def queryPieces (uri : Bytes) : List Bytes := (uri.dropWhile (· ≠ 63)).tail.splitOn 38

/-- The piece has an `=`, and `k` is the text before the first one. -/
def Names (k piece : Bytes) : Prop := 61 ∈ piece ∧ piece.takeWhile (· ≠ 61) = k

instance (k piece : Bytes) : Decidable (Names k piece) := inferInstanceAs (Decidable (_ ∧ _))

/-- What a piece adds to the parameters. -/
def addPiece (queries : StringMap) (piece : Bytes) : StringMap :=
  if 61 ∈ piece then
    queries.insert (piece.takeWhile (· ≠ 61)) (piece.dropWhile (· ≠ 61)).tail
  else queries

theorem splitOn_of_mem {rest : Bytes} (h : 38 ∈ rest) :
    rest.splitOn 38 =
      rest.takeWhile (· ≠ 38) ::
        (rest.drop ((rest.takeWhile (· ≠ 38)).length + 1)).splitOn 38 := by
  have hcut := cut_of_mem h
  have hpiece : (38 : UInt8) ∉ rest.takeWhile (· ≠ 38) := fun hmem => by
    simpa using List.mem_takeWhile_imp hmem
  have hrest : rest.drop ((rest.takeWhile (· ≠ 38)).length + 1) =
      (rest.dropWhile (· ≠ 38)).tail := by
    conv_lhs => arg 2; rw [hcut]
    rw [← List.drop_drop, List.drop_left]
    rfl
  conv_lhs => rw [hcut]
  rw [List.splitOn_append_cons_self_of_not_mem hpiece, hrest]

/-- **The loop of the scanner** adds piece after piece. -/
theorem queryLoop_eq_foldl {fuel : ℕ} {rest : Bytes} (h : rest.length ≤ fuel)
    (queries : StringMap) :
    queryLoop fuel rest queries = (rest.splitOn 38).foldl addPiece queries := by
  induction fuel generalizing rest queries with
  | zero =>
    rw [List.eq_nil_of_length_eq_zero (Nat.le_zero.mp h)]
    rfl
  | succ fuel ih =>
    unfold queryLoop
    split_ifs with hrest
    · rw [hrest]
      rfl
    have hstep : ∀ part, (if 61 ∈ part then
        queries.insert (part.takeWhile (· ≠ 61)) (part.dropWhile (· ≠ 61)).tail
      else queries) = addPiece queries part := fun part => rfl
    simp only [hstep]
    have hlen : (rest.drop ((rest.takeWhile (· ≠ 38)).length + 1)).length ≤ fuel := by
      rw [List.length_drop]
      omega
    by_cases hmem : 38 ∈ rest
    · rw [ih hlen, splitOn_of_mem hmem]
      rfl
    · have hall : rest.takeWhile (· ≠ 38) = rest :=
        List.takeWhile_eq_self_iff.mpr fun b hb => decide_eq_true fun heq => hmem (heq ▸ hb)
      rw [ih hlen, hall, List.drop_eq_nil_of_le (by omega), List.splitOn_eq_singleton hmem]
      rfl

theorem parseQuery_eq (uri : Bytes) : parseQuery uri = (queryPieces uri).foldl addPiece ∅ := by
  rw [parseQuery, queryInto, queryPieces]
  split
  next h => rw [h]; rfl
  next h => rw [h, queryLoop_eq_foldl le_rfl]; rfl

/-- **One piece** decides only about the key that it names. -/
theorem lookup_addPiece (queries : StringMap) (piece k : Bytes) :
    (addPiece queries piece).lookup k =
      if Names k piece then some (piece.dropWhile (· ≠ 61)).tail else queries.lookup k := by
  unfold addPiece
  by_cases heq : 61 ∈ piece
  · rw [if_pos heq]
    by_cases hk : piece.takeWhile (· ≠ 61) = k
    · rw [if_pos ⟨heq, hk⟩, hk, Finmap.lookup_insert]
    · rw [if_neg fun h => hk h.2, Finmap.lookup_insert_of_ne _ fun h => hk h.symm]
  · rw [if_neg heq, if_neg fun h => heq h.1]

/-- A key is found if a piece names it. -/
theorem lookup_isSome_foldl (k : Bytes) (pieces : List Bytes) :
    ((pieces.foldl addPiece ∅).lookup k).isSome ↔ ∃ piece ∈ pieces, Names k piece := by
  induction pieces using List.reverseRecOn with
  | nil => simp
  | append_singleton pieces piece ih =>
    simp only [List.foldl_append, List.foldl_cons, List.foldl_nil, List.mem_append,
      List.mem_singleton, or_and_right, exists_or, exists_eq_left, lookup_addPiece]
    split_ifs with hnames
    · simp [hnames]
    · rw [ih]
      simp [hnames]

/-- What is found is what stands in the last piece that names the key. -/
theorem lookup_foldl_of_last {k piece : Bytes} (before : List Bytes) {after : List Bytes}
    (hpiece : Names k piece) (hlast : ∀ q ∈ after, ¬Names k q) :
    ((before ++ piece :: after).foldl addPiece ∅).lookup k =
      some (piece.dropWhile (· ≠ 61)).tail := by
  rw [List.foldl_append, List.foldl_cons]
  have hhere : (addPiece (before.foldl addPiece ∅) piece).lookup k =
      some (piece.dropWhile (· ≠ 61)).tail := by
    rw [lookup_addPiece, if_pos hpiece]
  generalize addPiece (before.foldl addPiece ∅) piece = queries at hhere
  induction after generalizing queries with
  | nil => exact hhere
  | cons q after ih =>
    apply ih (fun q' hq' => hlast q' (List.mem_cons_of_mem q hq'))
    rw [lookup_addPiece, if_neg (hlast q List.mem_cons_self), hhere]

/-! ### The accessors -/

namespace HttpRequest

open Transcript

/-- The request was given the URI, and its parameters are those of its query or will be. -/
structure OfUri (uri : Bytes) (r : HttpRequest) : Prop where
  uri_eq : r.uri = uri
  path_eq : r.path = uri.takeWhile (· ≠ 63)
  current : r.QueryCurrent

variable {uri : Bytes} {r : HttpRequest}

/-- A change that neither the URI nor the parameters take part in. -/
theorem OfUri.of_parsed {r' : HttpRequest} (h : OfUri uri r) (hpath : r'.path = r.path)
    (huri : r'.parsed.uri = r.parsed.uri) (hqueries : r'.parsed.queries = r.parsed.queries) :
    OfUri uri r' where
  uri_eq := huri.trans h.uri_eq
  path_eq := hpath.trans h.path_eq
  current := by
    have hcurrent : r.parsed.queries = parseQuery r.parsed.uri := h.current
    change r'.parsed.queries = parseQuery r'.parsed.uri
    rw [hqueries, huri, hcurrent]

/-- **One call** that sets no URI. -/
theorem OfUri.perform (h : OfUri uri r) {c : Call} (hc : ∀ other, c ≠ .setUri other) :
    OfUri uri (r.perform c).2 := by
  cases c with
  | setUri other => exact absurd rfl (hc other)
  | setRawData data totalLen offsets headerEnd =>
    have hparsed := parsed_setRawData (r := r) data totalLen offsets headerEnd
    have hqueries := queryInto_queries h.current
    exact h.of_parsed rfl rfl (by rw [HttpRequest.perform, hparsed, hqueries])
  | setHeader key value =>
    have hparsed := parsed_setHeader (r := r) key value
    have hpath := congrArg HttpRequest.path (setHeader_eq (r := r) key value)
    exact h.of_parsed hpath (by rw [HttpRequest.perform, hparsed])
      (by rw [HttpRequest.perform, hparsed])
  | setBody body =>
    have hparsed := parsed_setBody (r := r) body
    have hpath := congrArg HttpRequest.path (ensureBodyParsed_eq r)
    exact h.of_parsed hpath (by rw [HttpRequest.perform, hparsed])
      (by rw [HttpRequest.perform, hparsed])
  | header | hasHeader =>
    have hparsed := parsed_ensureHeadersParsed r
    have hpath := congrArg HttpRequest.path (ensureHeadersParsed_eq (r := r))
    exact h.of_parsed hpath (congrArg ParsedRequest.uri hparsed)
      (congrArg ParsedRequest.queries hparsed)
  | query | hasQuery =>
    have hparsed := parsed_ensureQueryParsed r
    have hpath := congrArg HttpRequest.path (ensureQueryParsed_eq r)
    exact h.of_parsed hpath (congrArg ParsedRequest.uri hparsed)
      (congrArg ParsedRequest.queries hparsed)
  | body =>
    have hparsed := parsed_ensureBodyParsed r
    have hpath := congrArg HttpRequest.path (ensureBodyParsed_eq r)
    exact h.of_parsed hpath (congrArg ParsedRequest.uri hparsed)
      (congrArg ParsedRequest.queries hparsed)

/-- **The run**: a URI stays in force while no other is set. -/
theorem OfUri.foldl (h : OfUri uri r) {calls : List Call}
    (hcalls : ∀ other, Call.setUri other ∉ calls) :
    OfUri uri (calls.foldl (next HttpRequest.perform) r) := by
  induction calls generalizing r with
  | nil => exact h
  | cons c calls ih =>
    have hc : ∀ other, c ≠ .setUri other := fun other heq =>
      hcalls other (heq ▸ List.mem_cons_self)
    exact ih (h.perform hc) fun other hmem => hcalls other (List.mem_cons_of_mem c hmem)

/-- **The scanner** of `ensureQueryParsed` comes to its end with the parameters of the URI. -/
theorem scanQuery_eq (uri : Bytes) (queries : StringMap) :
    scanQuery (uri.length + 1) uri queries = some (queryInto uri queries) := by
  rw [scanQuery, findFrom_eq, List.drop_zero, Nat.zero_add]
  by_cases hmem : 63 ∈ uri
  · have hcut := cut_of_mem hmem
    have hdrop : uri.dropWhile (· ≠ 63) = 63 :: (uri.dropWhile (· ≠ 63)).tail := by
      rw [← List.append_right_inj (uri.takeWhile (· ≠ 63)), ← hcut,
        List.takeWhile_append_dropWhile]
    generalize uri.takeWhile (· ≠ 63) = path at hcut ⊢
    generalize (uri.dropWhile (· ≠ 63)).tail = qs at hcut hdrop
    have hqs : uri.drop (path.length + 1) = qs := by
      rw [hcut, ← List.drop_drop, List.drop_left]
      rfl
    have hlen : qs.length ≤ uri.length := by
      rw [← hqs, List.length_drop]
      omega
    simp only [if_pos hmem, hqs, queryInto, hdrop]
    rw [scanLoop_eq qs hlen, List.drop_zero, queryLoop_eq_foldl hlen, queryLoop_eq_foldl le_rfl]
  · have hdrop : uri.dropWhile (· ≠ 63) = [] :=
      List.dropWhile_eq_nil_iff.mpr fun b hb => decide_eq_true fun heq => hmem (heq ▸ hb)
    simp only [if_neg hmem, queryInto, hdrop]

theorem takeWhile_of_first {a b : Bytes} {c : UInt8} (h : c ∉ a) :
    (a ++ c :: b).takeWhile (· ≠ c) = a ∧ (a ++ c :: b).dropWhile (· ≠ c) = c :: b := by
  have hall : ∀ x ∈ a, decide (x ≠ c) = true := fun x hx =>
    decide_eq_true fun heq => h (heq ▸ hx)
  rw [List.takeWhile_append_of_pos hall, List.dropWhile_append_of_pos hall]
  simp

/-- **The grammar of a query.** A URI is set on a fresh request, and any calls but another `setUri`
follow. -/
theorem query_grammar (m : HttpMethod) (v : HttpVersion) (p : StringMap) (uri k : Bytes)
    {calls : List Call} (hcalls : ∀ other, Call.setUri other ∉ calls) :
    let start : HttpRequest := { method := m, version := v, params := p }
    let r := calls.foldl (next HttpRequest.perform) (start.setUri uri)
    (∃ turns, scanQuery turns uri ∅ = some r.ensureQueryParsed.queries) ∧
    ((63 ∉ uri → r.path = uri) ∧ ∀ a b, uri = a ++ 63 :: b → 63 ∉ a → r.path = a) ∧
    ((r.perform (.hasQuery k)).1 = .found true ↔ ∃ piece ∈ queryPieces uri, Names k piece) ∧
    (∀ before value after, queryPieces uri = before ++ (k ++ 61 :: value) :: after →
      61 ∉ k → (∀ q ∈ after, ¬Names k q) → (r.perform (.query k)).1 = .text value) ∧
    ((∀ q ∈ queryPieces uri, ¬Names k q) → (r.perform (.query k)).1 = .text []) := by
  intro start r
  have hset : OfUri uri (start.setUri uri) := ⟨rfl, rfl, rfl⟩
  have hof : OfUri uri r := hset.foldl hcalls
  have hqueries : r.ensureQueryParsed.queries = parseQuery uri :=
    hof.uri_eq ▸ hof.current
  have hlookup : (parseQuery uri).lookup k = ((queryPieces uri).foldl addPiece ∅).lookup k := by
    rw [parseQuery_eq]
  refine ⟨⟨uri.length + 1, ?_⟩, ⟨?_, ?_⟩, ?_, ?_, ?_⟩
  · rw [scanQuery_eq, hqueries]
    rfl
  · intro hnone
    rw [hof.path_eq]
    exact List.takeWhile_eq_self_iff.mpr fun b hb => decide_eq_true fun heq => hnone (heq ▸ hb)
  · rintro a b hcut hfirst
    rw [hof.path_eq, hcut]
    exact (takeWhile_of_first hfirst).1
  · rw [← lookup_isSome_foldl, ← hlookup, ← hqueries]
    simp [HttpRequest.perform]
  · intro before value after hpieces hk hafter
    have hcut := takeWhile_of_first (b := value) hk
    have hnames : Names k (k ++ 61 :: value) := ⟨by simp, hcut.1⟩
    have hlast := lookup_foldl_of_last before hnames hafter
    rw [hcut.2] at hlast
    simp only [HttpRequest.perform, hqueries, hlookup, hpieces, hlast]
    rfl
  · intro hnone
    have hmissing : ((queryPieces uri).foldl addPiece ∅).lookup k = none := by
      rw [← Option.not_isSome_iff_eq_none, lookup_isSome_foldl]
      rintro ⟨piece, hmem, hnames⟩
      exact hnone piece hmem hnames
    simp only [HttpRequest.perform, hqueries, hlookup, hmissing]
    rfl

/-- Pieces without `=` are skipped, and the last of two values counts. -/
theorem query_grammar_twice :
    let start : HttpRequest := { method := .get, version := .http11, params := ∅ }
    let r := [Call.hasQuery (ascii "b"), .body].foldl (next HttpRequest.perform)
      (start.setUri (ascii "/p?a=1&b&&a=2=3&"))
    (∀ other, Call.setUri other ∉ [Call.hasQuery (ascii "b"), .body]) ∧
      r.path = ascii "/p" ∧
      (r.perform (.query (ascii "a"))).1 = .text (ascii "2=3") ∧
      ((r.perform (.hasQuery (ascii "b"))).1 = .found true ↔
        ∃ piece ∈ queryPieces (ascii "/p?a=1&b&&a=2=3&"), Names (ascii "b") piece) := by
  intro start r
  have hcalls : ∀ other, Call.setUri other ∉ [Call.hasQuery (ascii "b"), .body] := by simp
  obtain ⟨_, ⟨_, hpath⟩, _, hquery, _⟩ := query_grammar .get .http11 ∅
    (ascii "/p?a=1&b&&a=2=3&") (ascii "a") hcalls
  obtain ⟨_, _, hb, _⟩ := query_grammar .get .http11 ∅
    (ascii "/p?a=1&b&&a=2=3&") (ascii "b") hcalls
  refine ⟨hcalls, hpath _ (ascii "a=1&b&&a=2=3&") (by decide +kernel) (by decide +kernel),
    hquery [ascii "a=1", ascii "b", []] _ [[]] (by decide +kernel) (by decide +kernel)
      (by decide +kernel), hb⟩

end HttpRequest

end XNetty
