import XNetty.Http.Turns
import XNetty.Http.Segmentation
import XNetty.Http.Recording

/-!
# Bytes behind a rejected request

The codec answers a header section that is too large with 431 and clears what it holds, and keeps
bytes on which the parser reports an error. Neither stops it: what comes next is read from its
first byte, or behind the bytes that it has kept.

## Main definitions

* `ReportingLlhttp` — the parser library with its errors.
* `HttpServerCodec.NeverReinterpreted` — nothing behind a rejected request is parsed or kept.
* `HttpServerCodec.neverReinterpreted_iff` — when that is so.
-/

namespace XNetty

/-- The parser library with the errors it reports. At the end of a message it is paused, and
reports none. -/
structure ReportingLlhttp extends Llhttp where
  refuses : Bytes → Bool
  refuses_unfinished : ∀ {raw}, refuses raw = true →
    .messageComplete ∉ (execute raw).callbacks

/-- A parser library that knows a table of requests, and reports an error where the bytes begin
no request of it. -/
def ReportingLlhttp.ofRecordings (table : List Recording) : ReportingLlhttp where
  toLlhttp := .ofRecordings table
  refuses w := table.all fun r => ¬ r.text.isPrefixOf w ∧ ¬ w.isPrefixOf r.text
  refuses_unfinished := by
    intro w hrefuses hmsg
    obtain ⟨r, hr, hpre, -⟩ := Llhttp.exists_of_messageComplete hmsg
    have hnone := List.all_eq_true.mp hrefuses r hr
    simp [List.isPrefixOf_iff_prefix, hpre] at hnone

namespace HttpServerCodec

variable (codec : HttpServerCodec) (ll : ReportingLlhttp)

/-- The call answers with 431. -/
def Answers431 (st : CodecState) (buf : ByteBuf) : Prop :=
  ∃ r ∈ channelRead codec ll.toLlhttp st (.buffer buf), headerTooLarge ∈ responses r.2

/-- The parser is not paused by the codec in the call, and reports an error. -/
def ReportsError (st : CodecState) (buf : ByteBuf) : Prop :=
  ∃ a ∈ lastExecuted codec ll.toLlhttp st buf,
    ll.refuses a.2 = true ∧ ∃ req, turn codec ll.toLlhttp a.1 a.2 = .unfinished req

/-- Nothing of these buffers is given to the parser, or kept. -/
def Ignores (st : CodecState) : List ByteBuf → Prop
  | [] => True
  | buf :: bufs =>
    lastExecuted codec ll.toLlhttp st buf = none ∧
      ∃ r ∈ channelRead codec ll.toLlhttp st (.buffer buf),
        r.1.leftover.readable = [] ∧ Ignores r.1 bufs

/-- **What is expected of the codec.** Once it has answered with 431, or the parser has reported
an error, nothing is kept, and nothing that comes later is given to the parser. -/
def NeverReinterpreted (st : CodecState) : List ByteBuf → Prop
  | [] => True
  | buf :: bufs =>
    (Answers431 codec ll st buf ∨ ReportsError codec ll st buf →
      ∃ r ∈ channelRead codec ll.toLlhttp st (.buffer buf),
        r.1.leftover.readable = [] ∧ Ignores codec ll r.1 bufs) ∧
    ∀ r ∈ channelRead codec ll.toLlhttp st (.buffer buf), NeverReinterpreted r.1 bufs

/-- The parser reports no error, and no buffer behind a 431 begins with a capital letter. -/
def Unprovoked (st : CodecState) : List ByteBuf → Prop
  | [] => True
  | buf :: bufs =>
    (¬ ReportsError codec ll st buf ∧
      (Answers431 codec ll st buf → ∀ b ∈ bufs, startsRequest b.readable = false)) ∧
    ∀ r ∈ channelRead codec ll.toLlhttp st (.buffer buf), Unprovoked r.1 bufs

variable {codec ll}

/-- A connection that holds nothing ignores what does not begin with a capital letter. -/
theorem ignores_iff {st : CodecState} (hidle : st.leftover.readable = []) (bufs : List ByteBuf) :
    Ignores codec ll st bufs ↔ ∀ b ∈ bufs, startsRequest b.readable = false := by
  induction bufs with
  | nil => simp [Ignores]
  | cons buf bufs ih =>
    have hparsed : lastExecuted codec ll.toLlhttp st buf = none ↔
        startsRequest buf.readable = false := by
      unfold lastExecuted
      by_cases hnil : buf.readable = []
      · simp [hnil, startsRequest]
      · simp [hnil, hidle]
    rw [Ignores, List.forall_mem_cons, ← ih, hparsed]
    refine and_congr_right fun hstart => ?_
    rw [channelRead_unparsed (hparsed.mpr hstart)]
    simp [hidle]

/-- Bytes on which an error is reported are kept. -/
theorem keeps_of_reportsError {st : CodecState} {buf : ByteBuf}
    (h : ReportsError codec ll st buf) :
    ∀ r ∈ channelRead codec ll.toLlhttp st (.buffer buf), r.1.leftover.readable ≠ [] := by
  obtain ⟨a, ha, -, req, hturn⟩ := h
  intro r hr
  have hleaves := channelRead_last (Option.mem_def.mp ha)
  rw [hturn] at hleaves
  rw [(hleaves r hr).2.1]
  exact lastExecuted_ne_nil ha

/-- A 431 leaves nothing. -/
theorem forgets_of_answers431 {st : CodecState} {buf : ByteBuf}
    (h : Answers431 codec ll st buf) :
    ∃ r ∈ channelRead codec ll.toLlhttp st (.buffer buf), r.1.leftover.readable = [] := by
  obtain ⟨r, hr, hresponse⟩ := h
  cases hlast : lastExecuted codec ll.toLlhttp st buf with
  | none =>
    rw [channelRead_unparsed hlast] at hr
    obtain rfl := Option.some.inj hr
    simp [responses] at hresponse
  | some a =>
    have hleaves := channelRead_last hlast
    cases hturn : turn codec ll.toLlhttp a.1 a.2 with
    | unfinished req =>
      rw [hturn] at hleaves
      exact absurd hresponse (hleaves r hr).2.2
    | _ =>
      rw [hturn] at hleaves
      obtain ⟨r', hr', hempty, -⟩ := hleaves
      exact ⟨r', hr', hempty⟩

theorem neverReinterpreted_from (st : CodecState) (bufs : List ByteBuf) :
    NeverReinterpreted codec ll st bufs ↔ Unprovoked codec ll st bufs := by
  induction bufs generalizing st with
  | nil => exact Iff.rfl
  | cons buf bufs ih =>
    rw [NeverReinterpreted, Unprovoked]
    refine and_congr ?_ (forall₂_congr fun r _ => ih r.1)
    by_cases herror : ReportsError codec ll st buf
    · refine iff_of_false (fun h => ?_) fun h => h.1 herror
      obtain ⟨r, hr, hempty, -⟩ := h (.inr herror)
      exact keeps_of_reportsError herror r hr hempty
    · simp only [herror, or_false, not_false_eq_true, true_and]
      refine forall_congr' fun hanswers => ?_
      obtain ⟨r, hr, hempty⟩ := forgets_of_answers431 hanswers
      rw [← ignores_iff hempty bufs]
      constructor
      · rintro ⟨r', hr', -, hignores⟩
        obtain rfl := Option.mem_unique hr hr'
        exact hignores
      · exact fun hignores => ⟨r, hr, hempty, hignores⟩

/-- **Never reinterpreted.** With any limits and any parser library, whatever a connection
receives: nothing behind a rejected request is parsed or kept if and only if the parser reports
no error, and no buffer behind a 431 begins with a capital letter. -/
theorem neverReinterpreted_iff (codec : HttpServerCodec) (ll : ReportingLlhttp)
    (bufs : List ByteBuf) :
    NeverReinterpreted codec ll .fresh bufs ↔ Unprovoked codec ll .fresh bufs :=
  neverReinterpreted_from .fresh bufs

section provoked

/-- A `POST` whose body looks like a request. -/
def smuggling : RequestText where
  start := ascii "POST "
  target := ascii "/"
  version := ascii " HTTP/1.1\r\n"
  headers :=
    [.plain (ascii "Content-Length") 1 (ascii "18") (by decide) (by decide +kernel)
      (by decide +kernel)]
  body := rootRequest.text
  target_ne := root_ne_nil

/-- The requests on record, and the two buffers in which the second of them comes. -/
def smuggled : List Recording := [smuggling.recording 3 1 1, rootRequest.recording 1 1 1]

def smugglingBufs : List ByteBuf :=
  [.copyOf (smuggling.head ++ crlf), .copyOf smuggling.body]

/-- **A body parsed as a request**: the header section is over the limit and answered with 431
before the body has come, which is then passed on as a request of its own. Bytes that are no
request are kept. -/
theorem not_neverReinterpreted :
    (readAll { maxHeaderSize := 20 } (.ofRecordings smuggled) .fresh smugglingBufs).map
        (fun r => (responses r.2, (firedRequests r.2).map HttpRequest.uri)) =
      some ([headerTooLarge], [ascii "/"]) ∧
    ¬ NeverReinterpreted { maxHeaderSize := 20 } (.ofRecordings smuggled) .fresh smugglingBufs ∧
    ¬ NeverReinterpreted {} (.ofRecordings smuggled) .fresh
        [.copyOf (ascii "INVALID\r\n\r\n")] := by
  refine ⟨by decide +kernel, fun h => ?_, fun h => ?_⟩
  · obtain ⟨⟨-, hbehind⟩, -⟩ := (neverReinterpreted_from _ _).mp h
    have hanswer : (channelRead { maxHeaderSize := 20 } (.ofRecordings smuggled) .fresh
        (.buffer (.copyOf (smuggling.head ++ crlf)))).map (fun r => responses r.2) =
        some [headerTooLarge] := by decide +kernel
    obtain ⟨r, hr, hresponses⟩ := Option.map_eq_some_iff.mp hanswer
    have hbody := hbehind ⟨r, hr, by simp [hresponses]⟩ (.copyOf smuggling.body) (by simp)
    exact absurd hbody (by decide +kernel)
  · obtain ⟨⟨hnone, -⟩, -⟩ := (neverReinterpreted_from _ _).mp h
    exact hnone ⟨_, rfl, by decide +kernel, _, rfl⟩

end provoked

end HttpServerCodec

end XNetty
