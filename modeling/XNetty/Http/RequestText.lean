import XNetty.Http.Llhttp

/-!
# Requests as text

A request as it stands on the wire: a request line, header lines with optional whitespace
around their values, an empty line and a body. Its parts say which spans the parser library
should find in it.

## Main definitions

* `HeaderLine`, `RequestText` — the parts of a request.
* `RequestText.FoundBy` — a parse has found these parts.
* `HeaderLine.readHeader_iff` — when the codec reads a header line as it was written.
-/

namespace XNetty

/-- `OWS`: a space or a tab. -/
def isOws (c : UInt8) : Bool := c = 32 ∨ c = 9

def crlf : Bytes := [13, 10]

/-- `name ':' OWS value OWS`, the value without surrounding whitespace. -/
structure HeaderLine where
  name : Bytes
  before : Bytes
  value : Bytes
  after : Bytes
  before_ows : ∀ c ∈ before, isOws c = true
  after_ows : ∀ c ∈ after, isOws c = true
  value_line : 13 ∉ value
  value_head : ∀ c ∈ value.head?, isOws c = false
  value_last : ∀ c ∈ value.getLast?, isOws c = false

namespace HeaderLine

/-- What stands behind the colon. -/
def behindColon (h : HeaderLine) : Bytes := h.before ++ (h.value ++ (h.after ++ crlf))

def text (h : HeaderLine) : Bytes := h.name ++ 58 :: h.behindColon

theorem length_text (h : HeaderLine) :
    h.text.length = h.name.length + 1 + h.before.length + h.value.length + h.after.length + 2 := by
  simp [text, behindColon, crlf]
  omega

/-- Spans that the parser library reports for a header line at position `start`. Where the
value is empty, only the line it lies in is settled. -/
structure SpansAt (h : HeaderLine) (start : ℕ) (s : Span × Span) : Prop where
  name : s.1 = ⟨start, h.name.length⟩
  len : s.2.len = h.value.length
  behind : s.1.stop < s.2.offset
  ends : s.2.stop ≤ start + h.text.length
  value : h.value ≠ [] → s.2.offset = start + h.name.length + 1 + h.before.length

/-- The spans of header lines, one behind the other. -/
def Spans : ℕ → List HeaderLine → List (Span × Span) → Prop
  | _, [], [] => True
  | start, h :: hs, s :: ss => h.SpansAt start s ∧ Spans (start + h.text.length) hs ss
  | _, _, _ => False

/-- As many spans as header lines, each of its line: what holds of none and of one more holds. -/
@[elab_as_elim] theorem Spans.induct_on
    {motive : ∀ start hs ss, Spans start hs ss → Prop} {start : ℕ} {hs : List HeaderLine}
    {ss : List (Span × Span)} (hss : Spans start hs ss)
    (nil : ∀ start, motive start [] [] trivial)
    (cons : ∀ start h hs s ss (hhead : SpansAt h start s)
      (htail : Spans (start + h.text.length) hs ss), motive _ hs ss htail →
        motive start (h :: hs) (s :: ss) ⟨hhead, htail⟩) :
    motive start hs ss hss := by
  induction hs generalizing ss start with
  | nil =>
    cases ss with
    | nil => exact nil start
    | cons s ss => exact absurd hss id
  | cons h hs ih =>
    cases ss with
    | nil => exact absurd hss id
    | cons s ss => exact cons start h hs s ss hss.1 hss.2 (ih hss.2)

theorem substr_middle (front mid back : Bytes) {n : ℕ} (hn : front.length = n) :
    substr (front ++ (mid ++ back)) n mid.length = mid := by
  subst hn
  simp [substr]

/-- What the codec takes for the value: it begins two bytes behind the name. -/
def readValue (h : HeaderLine) : Bytes := (h.behindColon.drop 1).take h.value.length

/-- **Reading two bytes behind the name**: it gives the value exactly when the value is empty
or one byte of whitespace stands in front of it. -/
theorem readValue_eq_iff (h : HeaderLine) :
    h.readValue = h.value ↔ h.value = [] ∨ h.before.length = 1 := by
  unfold readValue behindColon
  rcases hvalue : h.value with _ | ⟨v, vs⟩
  · simp
  rcases hbefore : h.before with _ | ⟨b, _ | ⟨b', bs⟩⟩
  · -- no whitespace: the value is read from its second byte on
    obtain ⟨c, tail, htail, hc⟩ : ∃ c tail, h.after ++ crlf = c :: tail ∧
        (isOws c = true ∨ c = 13) := by
      rcases hafter : h.after with _ | ⟨a, as⟩
      · exact ⟨13, _, rfl, .inr rfl⟩
      · exact ⟨a, _, rfl, .inl (h.after_ows a (by simp [hafter]))⟩
    have hread : ((([] : Bytes) ++ (v :: vs ++ (h.after ++ crlf))).drop 1).take
        (v :: vs).length = vs ++ [c] := by
      have hsplit : (([] : Bytes) ++ (v :: vs ++ (h.after ++ crlf))).drop 1 =
          vs ++ (h.after ++ crlf) := by simp
      rw [hsplit, htail]
      simp [List.take_append]
    rw [hread]
    constructor
    · intro heq
      have hlast : c ∈ h.value.getLast? := by
        rw [hvalue, ← heq]
        simp
      rcases hc with hc | rfl
      · exact absurd hc (by simp [h.value_last c hlast])
      · exact absurd (List.mem_of_getLast? hlast) h.value_line
    · simp
  · simp
  · -- two bytes or more: a byte of whitespace is read first
    have hb' : isOws b' = true := h.before_ows b' (by simp [hbefore])
    have hv : isOws v = false := h.value_head v (by simp [hvalue])
    have hne : b' ≠ v := fun heq => by simp [heq, hv] at hb'
    simp [hne]

/-- **How a header line is read.** -/
theorem readHeader_eq {h : HeaderLine} {s : Span × Span} {front back : Bytes} {start : ℕ}
    (hs : h.SpansAt start s) (hstart : front.length = start) :
    HttpRequest.readHeader (front ++ (h.text ++ back)) ⟨s.1.offset, s.1.len, s.2.len⟩ =
      (h.name, h.readValue) := by
  have hname : substr (front ++ (h.text ++ back)) start h.name.length = h.name := by
    unfold text
    rw [List.append_assoc]
    exact substr_middle front h.name _ hstart
  have hvalue : substr (front ++ (h.text ++ back)) (start + h.name.length + 2) h.value.length =
      h.readValue := by
    have hsplit : front ++ (h.text ++ back) =
        (front ++ (h.name ++ [58])) ++ (h.behindColon ++ back) := by simp [text]
    have hlen : start + h.name.length + 2 = (front ++ (h.name ++ [58])).length + 1 := by
      simp [hstart]
      omega
    have hroom : h.value.length ≤ (h.behindColon.drop 1).length := by
      simp only [behindColon, crlf, List.length_drop, List.length_append, List.length_cons]
      omega
    have hcolon : 1 ≤ h.behindColon.length := by simp [behindColon, crlf]; omega
    unfold substr readValue
    rw [hsplit, hlen, ← List.drop_drop, List.drop_left, List.drop_append_of_le_length hcolon,
      List.take_append_of_le_length hroom]
  unfold HttpRequest.readHeader
  rw [hs.name, hs.len]
  dsimp only
  rw [hname, hvalue]

/-- **When a header line is read as it was written.** -/
theorem readHeader_iff {h : HeaderLine} {s : Span × Span} {front back : Bytes} {start : ℕ}
    (hs : h.SpansAt start s) (hstart : front.length = start) :
    HttpRequest.readHeader (front ++ (h.text ++ back)) ⟨s.1.offset, s.1.len, s.2.len⟩ =
        (h.name, h.value) ↔
      h.value = [] ∨ h.before.length = 1 := by
  rw [readHeader_eq hs hstart, Prod.mk.injEq, and_iff_right rfl]
  exact h.readValue_eq_iff

/-- **How header lines one behind the other are read.** -/
theorem readHeaders_eq {hs : List HeaderLine} {ss : List (Span × Span)} {front back : Bytes}
    {start : ℕ} (hss : Spans start hs ss) (hstart : front.length = start) :
    (headerEntries ss).map (HttpRequest.readHeader (front ++ (hs.flatMap text ++ back))) =
      hs.map fun h => (h.name, h.readValue) := by
  induction hss using Spans.induct_on generalizing front with
  | nil => rfl
  | cons start h hs s ss hhead htail ih =>
    have hone := @readHeader_eq h s front (hs.flatMap text ++ back) start hhead hstart
    have hmore := @ih (front ++ h.text) (by simp [hstart])
    have hsplit : front ++ ((h :: hs).flatMap text ++ back) =
        front ++ (h.text ++ (hs.flatMap text ++ back)) := by simp
    rw [List.append_assoc] at hmore
    simp only [hsplit, headerEntries, List.map_cons, hone]
    exact congrArg _ hmore

/-- **Header lines one behind the other** are read as they were written exactly when each
of them is. -/
theorem readHeaders_iff {hs : List HeaderLine} {ss : List (Span × Span)} {front back : Bytes}
    {start : ℕ} (hss : Spans start hs ss) (hstart : front.length = start) :
    (headerEntries ss).map (HttpRequest.readHeader
        (front ++ (hs.flatMap text ++ back))) = hs.map (fun h => (h.name, h.value)) ↔
      ∀ h ∈ hs, h.value = [] ∨ h.before.length = 1 := by
  rw [readHeaders_eq hss hstart, List.map_inj_left]
  refine forall₂_congr fun h _ => ?_
  rw [Prod.mk.injEq, and_iff_right rfl]
  exact h.readValue_eq_iff

theorem Spans.length_eq {hs : List HeaderLine} {ss : List (Span × Span)} {start : ℕ}
    (hss : Spans start hs ss) : ss.length = hs.length := by
  induction hss using Spans.induct_on with
  | nil => rfl
  | cons start h hs s ss hhead htail ih => exact congrArg (· + 1) ih

theorem Spans.within {hs : List HeaderLine} {ss : List (Span × Span)} {start : ℕ}
    (hss : Spans start hs ss) :
    ∀ s ∈ ss, s.1.stop < s.2.offset ∧ s.2.stop ≤ start + (hs.flatMap text).length := by
  induction hss using Spans.induct_on with
  | nil => simp
  | cons start h hs s ss hhead htail ih =>
    rw [List.flatMap_cons, List.length_append, ← Nat.add_assoc, List.forall_mem_cons]
    exact ⟨⟨hhead.behind, hhead.ends.trans (Nat.le_add_right _ _)⟩, ih⟩

end HeaderLine

/-- A request on the wire. -/
structure RequestText where
  /-- The method and the blank behind it. -/
  start : Bytes
  target : Bytes
  /-- What follows the target in its line, the line end included. -/
  version : Bytes
  headers : List HeaderLine
  body : Bytes
  target_ne : target ≠ []

namespace RequestText

variable (rq : RequestText)

def line : Bytes := rq.start ++ (rq.target ++ rq.version)

/-- Everything before the empty line. -/
def head : Bytes := rq.line ++ rq.headers.flatMap HeaderLine.text

def text : Bytes := rq.head ++ (crlf ++ rq.body)

/-- Names and values, as they were written. -/
def fields : List (Bytes × Bytes) := rq.headers.map fun h => (h.name, h.value)

/-- The parser library reports the spans of these parts. -/
structure FoundBy (rq : RequestText) (t : Parse) : Prop where
  url : t.url = ⟨rq.start.length, rq.target.length⟩
  headers : HeaderLine.Spans rq.line.length rq.headers t.headers
  trailers : t.trailers = []

variable {rq} {t : Parse}

theorem FoundBy.stop_le (h : rq.FoundBy t) :
    t.url.stop ≤ rq.head.length ∧ ∀ s ∈ t.headers, s.1.stop < s.2.offset ∧
      s.2.stop ≤ rq.head.length := by
  have hspans := h.headers.within
  have hhead : rq.head.length =
      rq.line.length + (rq.headers.flatMap HeaderLine.text).length := by
    rw [head, List.length_append]
  have hurl : t.url.stop ≤ rq.line.length := by
    simp only [h.url, Span.stop, line, List.length_append]
    omega
  refine ⟨by omega, fun s hs => ?_⟩
  rw [hhead]
  exact hspans s hs

theorem FoundBy.within (h : rq.FoundBy t) : t.Within rq.text := by
  obtain ⟨hurl, hheaders⟩ := h.stop_le
  have hlen : rq.head.length + 2 ≤ rq.text.length := by
    simp [text, crlf]
  refine ⟨?_, by omega, ?_⟩
  · rw [h.url]
    exact List.length_pos_iff.mpr rq.target_ne
  · intro s hs
    rw [h.trailers, List.append_nil] at hs
    obtain ⟨hbehind, hstop⟩ := hheaders s hs
    exact ⟨hbehind, by omega⟩

/-- **The headers are thought to end** before the empty line. -/
theorem FoundBy.headerEnd_le (h : rq.FoundBy t) : t.headerEnd ≤ rq.head.length := by
  obtain ⟨hurl, hheaders⟩ := h.stop_le
  refine maxStop_le hurl fun s hs => ?_
  obtain ⟨hbehind, hstop⟩ := hheaders s hs
  unfold Span.stop at hbehind hstop ⊢
  omega

/-- **The header list** is the one that was written exactly when every value is empty or has
one byte of whitespace in front of it. -/
theorem FoundBy.readHeaders_iff (h : rq.FoundBy t) (rest : Bytes) :
    (headerEntries (t.headers ++ t.trailers)).map (HttpRequest.readHeader (rq.text ++ rest)) =
        rq.fields ↔
      ∀ line ∈ rq.headers, line.value = [] ∨ line.before.length = 1 := by
  have hsplit : rq.text ++ rest =
      rq.line ++ (rq.headers.flatMap HeaderLine.text ++ (crlf ++ (rq.body ++ rest))) := by
    simp [text, head]
  rw [h.trailers, List.append_nil, hsplit]
  exact HeaderLine.readHeaders_iff h.headers rfl

end RequestText

/-! ## Some requests -/

/-- `GET` with nothing but a target. -/
def getRequest (target : Bytes) (h : target ≠ []) : RequestText :=
  ⟨ascii "GET ", target, ascii " HTTP/1.1\r\n", [], [], h⟩

theorem root_ne_nil : ascii "/" ≠ [] := by decide

def rootRequest : RequestText := getRequest (ascii "/") root_ne_nil

/-- A header line with so many spaces behind its colon and nothing behind its value. -/
def HeaderLine.plain (name : Bytes) (blanks : ℕ) (value : Bytes) (hline : 13 ∉ value)
    (hhead : ∀ c ∈ value.head?, isOws c = false) (hlast : ∀ c ∈ value.getLast?, isOws c = false) :
    HeaderLine where
  name := name
  before := List.replicate blanks 32
  value := value
  after := []
  before_ows _ hc := by
    rw [List.eq_of_mem_replicate hc]
    rfl
  after_ows := List.forall_mem_nil _
  value_line := hline
  value_head := hhead
  value_last := hlast

/-- `POST /` with a body of three bytes, `Content-Length` announcing them. -/
def postRequest : RequestText where
  start := ascii "POST "
  target := ascii "/"
  version := ascii " HTTP/1.1\r\n"
  headers :=
    [.plain (ascii "Content-Length") 1 (ascii "3") (by decide) (by decide +kernel)
      (by decide +kernel)]
  body := ascii "abc"
  target_ne := root_ne_nil

end XNetty
