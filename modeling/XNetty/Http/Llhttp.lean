import XNetty.Http.Request

/-!
# The parser library

The codec hands its bytes to llhttp and gets callbacks with spans of them. The library is
a parameter: `Llhttp` is what one call of `llhttp_execute` from a reset state does, and
`Llhttp.Correct` is what the codec relies on.

## Main definitions

* `Llhttp.Complete` — the bytes are one whole request.
* `Parse` — what the library finds in a whole request.
* `ParseCtx`, `runCallbacks` — the codec's callbacks.
-/

namespace XNetty

/-- The arguments `at` and `len` of a span callback, `at` relative to the first byte. -/
structure Span where
  offset : ℕ
  len : ℕ
  deriving DecidableEq

/-- One past the last byte. -/
def Span.stop (s : Span) : ℕ := s.offset + s.len

inductive Callback where
  | url (s : Span)
  | headerField (s : Span)
  | headerValue (s : Span)
  /-- With `llhttp_get_method`, `http_major` and `http_minor` at that moment. -/
  | headersComplete (method major minor : ℕ)
  | messageComplete
  deriving DecidableEq

/-- The callbacks that one call makes, up to a message's end, and `llhttp_get_error_pos`
after `on_message_complete` has paused it there. -/
structure Execution where
  callbacks : List Callback
  errorPos : Option ℕ
  deriving DecidableEq

/-- `llhttp_execute` after `llhttp_reset`. -/
structure Llhttp where
  execute : Bytes → Execution

/-- What is found in a whole request: spans of names and values, method and version. -/
structure Parse where
  url : Span
  headers : List (Span × Span)
  method : ℕ
  major : ℕ
  minor : ℕ
  trailers : List (Span × Span) := []
  deriving DecidableEq

def headerCallbacks (hs : List (Span × Span)) : List Callback :=
  hs.flatMap fun h => [.headerField h.1, .headerValue h.2]

def Parse.callbacks (t : Parse) : List Callback :=
  .url t.url :: headerCallbacks t.headers ++
    .headersComplete t.method t.major t.minor :: (headerCallbacks t.trailers ++ [.messageComplete])

/-- Where the headers stop, what stopped them. -/
theorem headerCallbacks_append_inj {hs hs' : List (Span × Span)} {c c' : Callback}
    {cs cs' : List Callback} (hc : ∀ s, c ≠ .headerField s) (hc' : ∀ s, c' ≠ .headerField s)
    (h : headerCallbacks hs ++ c :: cs = headerCallbacks hs' ++ c' :: cs') :
    hs = hs' ∧ c = c' ∧ cs = cs' := by
  induction hs generalizing hs' with
  | nil =>
    cases hs' with
    | nil => exact ⟨rfl, List.cons.inj h⟩
    | cons h' hs' => exact absurd (List.cons.inj h).1 (hc _)
  | cons a hs ih =>
    cases hs' with
    | nil => exact absurd (List.cons.inj h).1.symm (hc' _)
    | cons a' hs' =>
      obtain ⟨hname, h⟩ := List.cons.inj h
      obtain ⟨hvalue, h⟩ := List.cons.inj h
      obtain ⟨rfl, hrest⟩ := ih h
      obtain rfl : a = a' :=
        Prod.ext (Callback.headerField.inj hname) (Callback.headerValue.inj hvalue)
      exact ⟨rfl, hrest⟩

/-- A parse is known by its callbacks. -/
theorem Parse.callbacks_injective : Function.Injective Parse.callbacks := by
  rintro ⟨url, hs, method, major, minor, ts⟩ ⟨url', hs', method', major', minor', ts'⟩ h
  obtain ⟨hurl, h⟩ := List.cons.inj h
  obtain ⟨rfl, hline, h⟩ := headerCallbacks_append_inj (by simp) (by simp) h
  obtain ⟨rfl, -, -⟩ := headerCallbacks_append_inj (by simp) (by simp) h
  obtain rfl := Callback.url.inj hurl
  obtain ⟨rfl, rfl, rfl⟩ := Callback.headersComplete.inj hline
  rfl

/-- The spans lie in the request: a colon ends every name, and at least the line feed and
carriage return of its own or of an empty line follow every value. -/
def Parse.Within (t : Parse) (p : Bytes) : Prop :=
  0 < t.url.len ∧ t.url.stop ≤ p.length ∧
    ∀ h ∈ t.headers ++ t.trailers, h.1.stop < h.2.offset ∧ h.2.stop + 2 ≤ p.length

instance (t : Parse) (p : Bytes) : Decidable (t.Within p) :=
  inferInstanceAs (Decidable (_ ∧ _ ∧ _))

namespace Llhttp

variable (ll : Llhttp)

/-- The bytes are one whole request: its end is reported, and it is the last byte. -/
def Complete (p : Bytes) : Prop :=
  .messageComplete ∈ (ll.execute p).callbacks ∧ (ll.execute p).errorPos = some p.length

/-- **What the codec relies on.** -/
structure Correct : Prop where
  /-- Behind a whole request nothing matters. -/
  stable : ∀ {p}, ll.Complete p → ∀ s, ll.execute (p ++ s) = ll.execute p
  /-- A message end is reported for a whole request only. -/
  reports : ∀ {w}, .messageComplete ∈ (ll.execute w).callbacks → ∃ p, p <+: w ∧ ll.Complete p
  /-- The callbacks of a whole request, in their order. -/
  parses : ∀ {p}, ll.Complete p →
    ∃ t : Parse, (ll.execute p).callbacks = t.callbacks ∧ t.Within p
  /-- Once the header section is there, its method and version are the request's. -/
  early : ∀ {p w m major minor}, ll.Complete p → w <+: p →
    .headersComplete m major minor ∈ (ll.execute w).callbacks →
    .headersComplete m major minor ∈ (ll.execute p).callbacks

end Llhttp

/-! ## The codec's callbacks -/

/-- `ParseCtx`; `rawStart` is where the executed bytes begin. -/
structure ParseCtx where
  req : HttpRequest
  headerEndOffset : ℕ := 0
  headerOffsets : List HeaderEntry := []
  msgComplete : Bool := false
  headerTooLarge : Bool := false
  maxHeaderSize : ℕ := 0
  maxOffset : ℕ := 0

/-- `headerOffsets.back().valueLen = len`. -/
def setValueLen (len : ℕ) : List HeaderEntry → List HeaderEntry
  | [] => []
  | [e] => [{ e with valueLen := len }]
  | e :: es => e :: setValueLen len es

/-- The `switch` of `on_hc` over `llhttp_method`; other methods leave the request's. -/
def methodOf : ℕ → Option HttpMethod
  | 0 => some .delete
  | 1 => some .get
  | 2 => some .head
  | 3 => some .post
  | 4 => some .put
  | 6 => some .options
  | 28 => some .patch
  | _ => none

def versionOf (major minor : ℕ) : HttpVersion :=
  if major = 1 ∧ minor = 1 then .http11 else .http10

namespace ParseCtx

variable (pctx : ParseCtx)

/-- `if (end > pctx->maxOffset) pctx->maxOffset = end`. -/
def reach (stop : ℕ) : ParseCtx := { pctx with maxOffset := max pctx.maxOffset stop }

def onUrl (raw : Bytes) (s : Span) : ParseCtx :=
  reach { pctx with req := pctx.req.setUri (substr raw s.offset s.len) } s.stop

def onHf (s : Span) : ParseCtx :=
  reach { pctx with headerOffsets := pctx.headerOffsets ++ [⟨s.offset, s.len, 0⟩] } s.stop

def onHv (s : Span) : ParseCtx :=
  if pctx.headerOffsets = [] then pctx
  else reach { pctx with headerOffsets := setValueLen s.len pctx.headerOffsets } s.stop

/-- The context, and whether `HPE_PAUSED` is returned. -/
def onHc (method major minor : ℕ) : ParseCtx × Bool :=
  let pctx := { pctx with headerEndOffset := pctx.maxOffset }
  if pctx.maxHeaderSize > 0 ∧ pctx.maxOffset > pctx.maxHeaderSize then
    ({ pctx with headerTooLarge := true }, true)
  else
    let r := match methodOf method with
      | some m => pctx.req.setMethod m
      | none => pctx.req
    ({ pctx with req := r.setVersion (versionOf major minor) }, false)

def onMsgCmpl : ParseCtx × Bool := ({ pctx with msgComplete := true }, true)

def onCallback (raw : Bytes) : Callback → ParseCtx × Bool
  | .url s => (pctx.onUrl raw s, false)
  | .headerField s => (pctx.onHf s, false)
  | .headerValue s => (pctx.onHv s, false)
  | .headersComplete method major minor => pctx.onHc method major minor
  | .messageComplete => pctx.onMsgCmpl

end ParseCtx

/-- The callbacks in their order, until one of them pauses the parser. -/
def runCallbacks (raw : Bytes) (pctx : ParseCtx) : List Callback → ParseCtx
  | [] => pctx
  | c :: cs =>
    let r := pctx.onCallback raw c
    if r.2 then r.1 else runCallbacks raw r.1 cs

/-! ## Running them on a whole request -/

theorem setValueLen_concat (len : ℕ) (es : List HeaderEntry) (e : HeaderEntry) :
    setValueLen len (es ++ [e]) = es ++ [{ e with valueLen := len }] := by
  induction es with
  | nil => rfl
  | cons d es ih =>
    cases es with
    | nil => rfl
    | cons d' es => simpa [setValueLen] using ih

/-- The entries that the callbacks make of the spans of headers. -/
def headerEntries (hs : List (Span × Span)) : List HeaderEntry :=
  hs.map fun h => ⟨h.1.offset, h.1.len, h.2.len⟩

/-- The largest end of a span. -/
def maxStop (start : ℕ) (hs : List (Span × Span)) : ℕ :=
  hs.foldl (fun m h => max (max m h.1.stop) h.2.stop) start

theorem le_maxStop (start : ℕ) (hs : List (Span × Span)) : start ≤ maxStop start hs := by
  induction hs generalizing start with
  | nil => exact le_rfl
  | cons h hs ih => exact ((le_max_left _ _).trans (le_max_left _ _)).trans (ih _)

theorem maxStop_le {start n : ℕ} {hs : List (Span × Span)} (hstart : start ≤ n)
    (hhs : ∀ h ∈ hs, h.1.stop ≤ n ∧ h.2.stop ≤ n) : maxStop start hs ≤ n := by
  induction hs generalizing start with
  | nil => exact hstart
  | cons h hs ih =>
    obtain ⟨⟨hname, hvalue⟩, hhs⟩ := List.forall_mem_cons.mp hhs
    exact ih (max_le (max_le hstart hname) hvalue) hhs

theorem runCallbacks_headers (raw : Bytes) (pctx : ParseCtx) (hs : List (Span × Span))
    (cs : List Callback) :
    runCallbacks raw pctx (headerCallbacks hs ++ cs) =
      runCallbacks raw
        { pctx with
          headerOffsets := pctx.headerOffsets ++ headerEntries hs
          maxOffset := maxStop pctx.maxOffset hs } cs := by
  induction hs generalizing pctx with
  | nil => simp [headerCallbacks, headerEntries, maxStop]
  | cons h hs ih =>
    have hone : runCallbacks raw pctx (headerCallbacks (h :: hs) ++ cs) =
        runCallbacks raw ((pctx.onHf h.1).onHv h.2) (headerCallbacks hs ++ cs) := rfl
    have hpair : (pctx.onHf h.1).onHv h.2 =
        { pctx with
          headerOffsets := pctx.headerOffsets ++ [⟨h.1.offset, h.1.len, h.2.len⟩]
          maxOffset := max (max pctx.maxOffset h.1.stop) h.2.stop } := by
      simp [ParseCtx.onHf, ParseCtx.onHv, ParseCtx.reach, setValueLen_concat]
    rw [hone, hpair, ih]
    simp [headerEntries, maxStop]

namespace Parse

variable (t : Parse)

/-- Where the headers are thought to end. -/
def headerEnd : ℕ := maxStop t.url.stop t.headers

/-- The header section is over the limit. -/
def TooLarge (maxHeaderSize : ℕ) : Prop := maxHeaderSize > 0 ∧ t.headerEnd > maxHeaderSize

instance (maxHeaderSize : ℕ) : Decidable (t.TooLarge maxHeaderSize) :=
  inferInstanceAs (Decidable (_ ∧ _))

/-- The request line, put into a request. -/
def requestLine (raw : Bytes) (req : HttpRequest) : HttpRequest :=
  let r := req.setUri (substr raw t.url.offset t.url.len)
  (match methodOf t.method with
    | some m => r.setMethod m
    | none => r).setVersion (versionOf t.major t.minor)

theorem runCallbacks_headerSection (maxHeaderSize : ℕ) (raw : Bytes) (req : HttpRequest) :
    runCallbacks raw { req := req, maxHeaderSize := maxHeaderSize } t.callbacks =
      runCallbacks raw
        { req := req.setUri (substr raw t.url.offset t.url.len)
          headerOffsets := headerEntries t.headers
          maxHeaderSize := maxHeaderSize
          maxOffset := t.headerEnd }
        (.headersComplete t.method t.major t.minor ::
          (headerCallbacks t.trailers ++ [.messageComplete])) := by
  have hurl : runCallbacks raw { req := req, maxHeaderSize := maxHeaderSize } t.callbacks =
      runCallbacks raw
        { req := req.setUri (substr raw t.url.offset t.url.len)
          maxHeaderSize := maxHeaderSize
          maxOffset := t.url.stop }
        (headerCallbacks t.headers ++ .headersComplete t.method t.major t.minor ::
          (headerCallbacks t.trailers ++ [.messageComplete])) := by
    simp [Parse.callbacks, runCallbacks, ParseCtx.onCallback, ParseCtx.onUrl, ParseCtx.reach]
  rw [hurl, runCallbacks_headers]
  simp [headerEnd]

/-- Over the limit, the parser is paused behind the headers. -/
theorem runCallbacks_tooLarge {maxHeaderSize : ℕ} (h : t.TooLarge maxHeaderSize) (raw : Bytes)
    (req : HttpRequest) :
    runCallbacks raw { req := req, maxHeaderSize := maxHeaderSize } t.callbacks =
      { req := req.setUri (substr raw t.url.offset t.url.len)
        headerEndOffset := t.headerEnd
        headerOffsets := headerEntries t.headers
        headerTooLarge := true
        maxHeaderSize := maxHeaderSize
        maxOffset := t.headerEnd } := by
  rw [runCallbacks_headerSection]
  have hlimit : maxHeaderSize > 0 ∧ t.headerEnd > maxHeaderSize := h
  simp [runCallbacks, ParseCtx.onCallback, ParseCtx.onHc, hlimit]

/-- **A whole request** leaves its request line, its header entries and its end. -/
theorem runCallbacks_complete {maxHeaderSize : ℕ} (h : ¬ t.TooLarge maxHeaderSize) (raw : Bytes)
    (req : HttpRequest) :
    runCallbacks raw { req := req, maxHeaderSize := maxHeaderSize } t.callbacks =
      { req := t.requestLine raw req
        headerEndOffset := t.headerEnd
        headerOffsets := headerEntries (t.headers ++ t.trailers)
        msgComplete := true
        maxHeaderSize := maxHeaderSize
        maxOffset := maxStop t.headerEnd t.trailers } := by
  rw [runCallbacks_headerSection]
  have hlimit : ¬ (maxHeaderSize > 0 ∧ t.headerEnd > maxHeaderSize) := h
  rw [runCallbacks]
  simp only [ParseCtx.onCallback, ParseCtx.onHc, if_neg hlimit, Bool.false_eq_true, if_false]
  rw [runCallbacks_headers]
  simp [runCallbacks, ParseCtx.onCallback, ParseCtx.onMsgCmpl, requestLine, headerEntries]

end Parse

/-! ## Running them on a part of a request -/

/-- `r'` is `r` with another request line. -/
def HttpRequest.SameButLine (r r' : HttpRequest) : Prop :=
  r' = { r with method := r'.method, version := r'.version, uri := r'.uri, path := r'.path }

theorem HttpRequest.SameButLine.trans {r r' r'' : HttpRequest} (h : r.SameButLine r')
    (h' : r'.SameButLine r'') : r.SameButLine r'' := by
  unfold SameButLine at *
  refine h'.trans ?_
  rw [h]

/-- What one callback does to the request: nothing but its line, and a method only when it
reports one. -/
theorem ParseCtx.onCallback_req (pctx : ParseCtx) (raw : Bytes) (c : Callback) :
    pctx.req.SameButLine (pctx.onCallback raw c).1.req ∧
    ((pctx.onCallback raw c).1.req.method = pctx.req.method ∨
      ∃ m major minor, c = .headersComplete m major minor ∧
        methodOf m = some (pctx.onCallback raw c).1.req.method) := by
  cases c with
  | url s => exact ⟨rfl, .inl rfl⟩
  | headerField s => exact ⟨rfl, .inl rfl⟩
  | headerValue s =>
    simp only [onCallback, onHv]
    split
    · exact ⟨rfl, .inl rfl⟩
    · exact ⟨rfl, .inl rfl⟩
  | headersComplete m major minor =>
    simp only [onCallback, onHc]
    split
    · exact ⟨rfl, .inl rfl⟩
    · cases hm : methodOf m with
      | none => exact ⟨rfl, .inl rfl⟩
      | some method => exact ⟨rfl, .inr ⟨m, major, minor, rfl, hm⟩⟩
  | messageComplete => exact ⟨rfl, .inl rfl⟩

/-- What else one callback does, when it reports no message end. -/
theorem ParseCtx.onCallback_flags (pctx : ParseCtx) (raw : Bytes) {c : Callback}
    (hc : c ≠ .messageComplete) :
    (pctx.onCallback raw c).1.msgComplete = pctx.msgComplete ∧
    (pctx.onCallback raw c).1.maxHeaderSize = pctx.maxHeaderSize ∧
    (pctx.maxHeaderSize = 0 → (pctx.onCallback raw c).1.headerTooLarge = pctx.headerTooLarge) := by
  cases c with
  | url s => exact ⟨rfl, rfl, fun _ => rfl⟩
  | headerField s => exact ⟨rfl, rfl, fun _ => rfl⟩
  | headerValue s =>
    simp only [onCallback, onHv]
    split <;> exact ⟨rfl, rfl, fun _ => rfl⟩
  | headersComplete m major minor =>
    simp only [onCallback, onHc]
    split
    next h => exact ⟨rfl, rfl, fun hz => absurd h.1 (by omega)⟩
    next => exact ⟨rfl, rfl, fun _ => rfl⟩
  | messageComplete => exact absurd rfl hc

/-- **Callbacks that report no message end** touch the request line only, and set the method
to one they report. -/
theorem runCallbacks_unfinished {cs : List Callback} (hcs : .messageComplete ∉ cs) (raw : Bytes)
    (pctx : ParseCtx) :
    (runCallbacks raw pctx cs).msgComplete = pctx.msgComplete ∧
    (pctx.maxHeaderSize = 0 →
      (runCallbacks raw pctx cs).headerTooLarge = pctx.headerTooLarge) ∧
    pctx.req.SameButLine (runCallbacks raw pctx cs).req ∧
    ((runCallbacks raw pctx cs).req.method = pctx.req.method ∨
      ∃ m major minor, .headersComplete m major minor ∈ cs ∧
        methodOf m = some (runCallbacks raw pctx cs).req.method) := by
  induction cs generalizing pctx with
  | nil => exact ⟨rfl, fun _ => rfl, rfl, .inl rfl⟩
  | cons c cs ih =>
    obtain ⟨hc, hcs⟩ := not_or.mp (fun h => hcs (List.mem_cons.mpr h))
    obtain ⟨hmsg, hsize, hlarge⟩ :=
      pctx.onCallback_flags raw (show c ≠ .messageComplete from fun h => hc h.symm)
    obtain ⟨hsame, hmethod⟩ := pctx.onCallback_req raw c
    have hmethod' : (pctx.onCallback raw c).1.req.method = pctx.req.method ∨
        ∃ m major minor, .headersComplete m major minor ∈ c :: cs ∧
          methodOf m = some (pctx.onCallback raw c).1.req.method := by
      obtain h | ⟨m, major, minor, rfl, h⟩ := hmethod
      · exact .inl h
      · exact .inr ⟨m, major, minor, by simp, h⟩
    unfold runCallbacks
    dsimp only
    split
    · exact ⟨hmsg, hlarge, hsame, hmethod'⟩
    · obtain ⟨hmsg', hlarge', hsame', hlater⟩ := ih hcs (pctx.onCallback raw c).1
      refine ⟨hmsg'.trans hmsg, fun hz => (hlarge' (hsize.trans hz)).trans (hlarge hz),
        hsame.trans hsame', ?_⟩
      obtain h | ⟨m, major, minor, hm, h⟩ := hlater
      · rw [h]
        exact hmethod'
      · exact .inr ⟨m, major, minor, List.mem_cons_of_mem _ hm, h⟩

end XNetty
