import XNetty.Http.RequestText

/-!
# Recorded parses

A parser library that knows a table of requests: what it reports for each of them, and for
any part of one what it reports up to there.

## Main definitions

* `Recording` — a request with its parse.
* `Llhttp.ofRecordings` — the parser library of a table.
* `Llhttp.ofRecordings_correct` — it is one that the codec can rely on.
-/

namespace XNetty

/-- A request with its parse and the end of its header section. -/
structure Recording where
  text : Bytes
  parse : Parse
  headersStop : ℕ
  deriving DecidableEq

/-- The part of a span in the first `n` bytes, once it has begun there. -/
def Span.upTo (n : ℕ) (s : Span) : Option Span :=
  if s.offset < n then some ⟨s.offset, min s.len (n - s.offset)⟩ else none

def headerCallbacksUpTo (n : ℕ) (hs : List (Span × Span)) : List Callback :=
  hs.flatMap fun h =>
    (h.1.upTo n).toList.map .headerField ++ (h.2.upTo n).toList.map .headerValue

/-- The callbacks for the first `n` bytes. -/
def Recording.callbacksUpTo (r : Recording) (n : ℕ) : List Callback :=
  (r.parse.url.upTo n).toList.map .url ++ headerCallbacksUpTo n r.parse.headers ++
    if r.headersStop ≤ n then
      .headersComplete r.parse.method r.parse.major r.parse.minor ::
        headerCallbacksUpTo n r.parse.trailers
    else []

/-- The parser library of a table. -/
def Llhttp.ofRecordings (table : List Recording) : Llhttp where
  execute w :=
    match table.find? fun r => r.text.isPrefixOf w with
    | some r => ⟨r.parse.callbacks, some r.text.length⟩
    | none =>
      match table.find? fun r => w.isPrefixOf r.text with
      | some r => ⟨r.callbacksUpTo w.length, none⟩
      | none => ⟨[], none⟩

/-- The spans lie in their requests, and header sections tell the requests apart. -/
def Recording.Sound (table : List Recording) : Prop :=
  ∀ r ∈ table, r.parse.Within r.text ∧
    ∀ r' ∈ table, r.text.take r.headersStop <+: r'.text → r = r'

instance (table : List Recording) : Decidable (Recording.Sound table) :=
  inferInstanceAs (Decidable (∀ r ∈ table, _ ∧ ∀ r' ∈ table, _ → _))

/-- The recording of a request text, an empty value lying at the end of its line. -/
def RequestText.recording (rq : RequestText) (method major minor : ℕ) : Recording where
  text := rq.text
  parse :=
    { url := ⟨rq.start.length, rq.target.length⟩
      headers := spansFrom rq.line.length rq.headers
      method := method
      major := major
      minor := minor }
  headersStop := rq.head.length + 2
where
  spansFrom : ℕ → List HeaderLine → List (Span × Span)
    | _, [] => []
    | start, h :: hs =>
      (⟨start, h.name.length⟩,
        if h.value = [] then ⟨start + h.text.length, 0⟩
        else ⟨start + h.name.length + 1 + h.before.length, h.value.length⟩) ::
      spansFrom (start + h.text.length) hs

theorem RequestText.spans_spansFrom (start : ℕ) (hs : List HeaderLine) :
    HeaderLine.Spans start hs (recording.spansFrom start hs) := by
  induction hs generalizing start with
  | nil => trivial
  | cons h hs ih =>
    refine ⟨?_, ih _⟩
    have hlen := h.length_text
    by_cases hvalue : h.value = []
    · constructor <;> simp [hvalue, Span.stop, hlen]
      omega
    · constructor <;> simp [hvalue, Span.stop, hlen] <;> omega

theorem RequestText.foundBy_recording (rq : RequestText) (method major minor : ℕ) :
    rq.FoundBy (rq.recording method major minor).parse :=
  ⟨rfl, spans_spansFrom _ _, rfl⟩

/-- One request alone is sound. -/
theorem RequestText.sound_recording (rq : RequestText) (method major minor : ℕ) :
    Recording.Sound [rq.recording method major minor] := by
  intro r hr
  rw [List.mem_singleton] at hr
  subst hr
  refine ⟨(rq.foundBy_recording method major minor).within, fun r' hr' _ => ?_⟩
  exact (List.mem_singleton.mp hr').symm

namespace Llhttp

variable {table : List Recording} (ht : Recording.Sound table)

theorem messageComplete_not_mem_upTo (r : Recording) (n : ℕ) :
    .messageComplete ∉ r.callbacksUpTo n := by
  have hheaders : ∀ hs, .messageComplete ∉ headerCallbacksUpTo n hs := by
    intro hs
    simp [headerCallbacksUpTo]
  unfold Recording.callbacksUpTo
  split <;> simp [hheaders]

/-- A message end is reported for a request of the table. -/
theorem exists_of_messageComplete {w : Bytes}
    (h : .messageComplete ∈ ((ofRecordings table).execute w).callbacks) :
    ∃ r ∈ table, r.text <+: w ∧
      (ofRecordings table).execute w = ⟨r.parse.callbacks, some r.text.length⟩ := by
  unfold ofRecordings at h ⊢
  dsimp only at h ⊢
  cases hfind : table.find? fun r => r.text.isPrefixOf w with
  | some r =>
    have hpre := List.find?_some hfind
    exact ⟨r, List.mem_of_find?_eq_some hfind, List.isPrefixOf_iff_prefix.mp hpre, rfl⟩
  | none =>
    rw [hfind] at h
    cases hpart : table.find? fun r => w.isPrefixOf r.text with
    | some r =>
      simp only [hpart] at h
      exact absurd h (messageComplete_not_mem_upTo r _)
    | none => simp [hpart] at h

include ht

/-- The recordings are told apart by what precedes their bodies. -/
theorem eq_of_fronts {r r' : Recording} (hr : r ∈ table) (hr' : r' ∈ table) {w : Bytes}
    (hw : r.text <+: w) (hw' : r'.text <+: w) : r = r' := by
  rcases List.prefix_or_prefix_of_prefix hw hw' with h | h
  · exact (ht r hr).2 r' hr' ((List.take_prefix _ _).trans h)
  · exact ((ht r' hr').2 r hr ((List.take_prefix _ _).trans h)).symm

theorem execute_of_front {r : Recording} (hr : r ∈ table) {w : Bytes} (hw : r.text <+: w) :
    (ofRecordings table).execute w = ⟨r.parse.callbacks, some r.text.length⟩ := by
  unfold ofRecordings
  dsimp only
  cases hfind : table.find? fun r => r.text.isPrefixOf w with
  | some r' =>
    have hpre := List.find?_some hfind
    obtain rfl := eq_of_fronts ht hr (List.mem_of_find?_eq_some hfind) hw
      (List.isPrefixOf_iff_prefix.mp hpre)
    rfl
  | none =>
    have hno := List.find?_eq_none.mp hfind r hr
    exact absurd (List.isPrefixOf_iff_prefix.mpr hw) hno

/-- The whole requests are those of the table. -/
theorem complete_iff {p : Bytes} :
    (ofRecordings table).Complete p ↔ ∃ r ∈ table, r.text = p := by
  constructor
  · rintro ⟨hmsg, hpos⟩
    obtain ⟨r, hr, hpre, hexec⟩ := exists_of_messageComplete hmsg
    rw [hexec] at hpos
    exact ⟨r, hr, hpre.eq_of_length (Option.some.inj hpos)⟩
  · rintro ⟨r, hr, rfl⟩
    have hexec := execute_of_front ht hr (List.prefix_refl r.text)
    refine ⟨?_, by rw [hexec]⟩
    rw [hexec]
    simp [Parse.callbacks]

theorem complete_of_mem {r : Recording} (hr : r ∈ table) : (ofRecordings table).Complete r.text :=
  (complete_iff ht).mpr ⟨r, hr, rfl⟩

theorem callbacks_of_mem {r : Recording} (hr : r ∈ table) :
    ((ofRecordings table).execute r.text).callbacks = r.parse.callbacks := by
  rw [execute_of_front ht hr (List.prefix_refl r.text)]

/-- **The parser library of a table** is one that the codec can rely on. -/
theorem ofRecordings_correct : (ofRecordings table).Correct where
  stable := by
    intro p hp s
    obtain ⟨r, hr, rfl⟩ := (complete_iff ht).mp hp
    rw [execute_of_front ht hr (List.prefix_append r.text s),
      execute_of_front ht hr (List.prefix_refl r.text)]
  reports := by
    intro w hmsg
    obtain ⟨r, hr, hpre, -⟩ := exists_of_messageComplete hmsg
    exact ⟨r.text, hpre, (complete_iff ht).mpr ⟨r, hr, rfl⟩⟩
  parses := by
    intro p hp
    obtain ⟨r, hr, rfl⟩ := (complete_iff ht).mp hp
    rw [execute_of_front ht hr (List.prefix_refl r.text)]
    exact ⟨r.parse, rfl, (ht r hr).1⟩
  early := by
    intro p w method major minor hp hw hmem
    obtain ⟨r, hr, rfl⟩ := (complete_iff ht).mp hp
    by_cases hmsg : .messageComplete ∈ ((ofRecordings table).execute w).callbacks
    · obtain ⟨r', hr', hpre, hexec⟩ := exists_of_messageComplete hmsg
      rwa [hexec, eq_of_fronts ht hr' hr (hpre.trans hw) (List.prefix_refl _),
        ← execute_of_front ht hr (List.prefix_refl r.text)] at hmem
    · rw [execute_of_front ht hr (List.prefix_refl r.text)]
      unfold ofRecordings at hmem hmsg
      dsimp only at hmem hmsg
      cases hfind : table.find? fun r => r.text.isPrefixOf w with
      | some r' => simp [hfind, Parse.callbacks] at hmsg
      | none =>
        cases hpart : table.find? fun r => w.isPrefixOf r.text with
        | none => simp [hfind, hpart] at hmem
        | some r' =>
          have hr' := List.mem_of_find?_eq_some hpart
          have hpre := List.find?_some hpart
          have hw' : w <+: r'.text := List.isPrefixOf_iff_prefix.mp hpre
          simp only [hfind, hpart, Recording.callbacksUpTo] at hmem
          -- the header section of `r'` is there, so that `r'` is the request itself
          have hstop : r'.headersStop ≤ w.length := by
            by_contra hlate
            simp [hlate, headerCallbacksUpTo] at hmem
          have hhead : r'.text.take r'.headersStop <+: r.text := by
            refine List.IsPrefix.trans ?_ hw
            exact List.prefix_of_prefix_length_le (List.take_prefix _ _) hw'
              ((List.length_take_le _ _).trans hstop)
          obtain rfl := (ht r' hr').2 r hr hhead
          simp [hstop, headerCallbacksUpTo] at hmem
          simp [Parse.callbacks, hmem]

end Llhttp

end XNetty
