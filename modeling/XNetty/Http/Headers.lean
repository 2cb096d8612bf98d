import XNetty.Http.Delivery

/-!
# Headers of delivered requests

The header list is read from the name spans alone: a value is taken to start two bytes
behind its name. That is right for one byte of whitespace behind the colon.

## Main definitions

* `HttpRequest.Shows` — the header list is the one that was written.
* `HttpServerCodec.shows_iff` — when it is.
-/

namespace XNetty

/-- The header list is the one that was written, and looking a name up gives the value of
the first header of that name. -/
def HttpRequest.Shows (req : HttpRequest) (rq : RequestText) : Prop :=
  req.ensureHeadersParsed.headers = rq.fields ∧
    ∀ first line rest, rq.headers = first ++ line :: rest →
      (∀ earlier ∈ first, earlier.name ≠ line.name) → (req.header line.name).1 = line.value

namespace HttpServerCodec

theorem findHeader_of_first {fields : List (Bytes × Bytes)} {first rest : List (Bytes × Bytes)}
    {name value : Bytes} (hfields : fields = first ++ (name, value) :: rest)
    (hfirst : ∀ kv ∈ first, kv.1 ≠ name) : HttpRequest.findHeader fields name = some value := by
  have hnone : first.find? (fun kv => decide (kv.1 = name)) = none := by
    rw [List.find?_eq_none]
    intro kv hkv
    simpa using hfirst kv hkv
  simp [HttpRequest.findHeader, hfields, List.find?_append, hnone]

/-- A header list that is as it was written shows the values. -/
theorem shows_of_headers {req : HttpRequest} {rq : RequestText}
    (h : req.ensureHeadersParsed.headers = rq.fields) : req.Shows rq := by
  refine ⟨h, fun first line rest hsplit hfirst => ?_⟩
  have hfields : rq.fields = first.map (fun l => (l.name, l.value)) ++
      (line.name, line.value) :: rest.map (fun l => (l.name, l.value)) := by
    simp [RequestText.fields, hsplit]
  unfold HttpRequest.header
  rw [h, findHeader_of_first hfields]
  · rfl
  · intro kv hkv
    obtain ⟨earlier, hmem, rfl⟩ := List.mem_map.mp hkv
    exact hfirst earlier hmem

variable {codec : HttpServerCodec} {ll : Llhttp}

/-- A request made with headers `r.headers` in the codec's state. -/
theorem MadeOf.headers_iff {r req : HttpRequest} {rq : RequestText} {t : Parse}
    (h : MadeOf ll r rq.text req) (ht : (ll.execute rq.text).callbacks = t.callbacks)
    (hfound : rq.FoundBy t) :
    req.ensureHeadersParsed.headers = rq.fields ↔
      r.headers = [] ∧ ∀ line ∈ rq.headers, line.value = [] ∨ line.before.length = 1 := by
  obtain ⟨s, hheaders⟩ := h.headers ht
  have hread := hfound.readHeaders_iff s
  have hlen : ((headerEntries (t.headers ++ t.trailers)).map
      (HttpRequest.readHeader (rq.text ++ s))).length = rq.fields.length := by
    rw [hfound.trailers, List.append_nil, List.length_map, headerEntries, List.length_map,
      hfound.headers.length_eq, RequestText.fields, List.length_map]
  rw [hheaders, ← hread]
  constructor
  · intro heq
    -- both lists are equally long, so that nothing stands in front
    have hold : r.headers = [] := by
      have hsum := congrArg List.length heq
      rw [List.length_append, hlen] at hsum
      exact List.length_eq_zero_iff.mp (by omega)
    rw [hold, List.nil_append] at heq
    exact ⟨hold, heq⟩
  · rintro ⟨hold, heq⟩
    rw [hold, List.nil_append]
    exact heq

/-- **The header list of a delivered request**, in any state of the connection, with any
limits and however its bytes came: it is the one that was written exactly when every value is
empty or has one byte of whitespace in front of it, and the codec's request object held no
headers when it became this request. -/
theorem shows_iff (hll : ll.Correct) {st st' : CodecState} {buf : ByteBuf}
    {actions : List Action} (hrun : channelRead codec ll st (.buffer buf) = some (st', actions))
    {i : ℕ} {req : HttpRequest} (hreq : (firedRequests actions)[i]? = some req)
    {rq : RequestText} (hrq : req.PointsAt rq.text) {t : Parse}
    (ht : (ll.execute rq.text).callbacks = t.callbacks) (hfound : rq.FoundBy t) :
    req.Shows rq ↔
      (∀ line ∈ rq.headers, line.value = [] ∨ line.before.length = 1) ∧
      (i = 0 → st.request.headers = []) := by
  obtain ⟨p, hmade⟩ := (channelRead_fired hll hrun).1.get hreq
  obtain rfl := hmade.pointsAt.unique hrq
  have hheaders := hmade.headers_iff ht hfound
  have hold : (if i = 0 then st.request else {}).headers = [] ↔
      (i = 0 → st.request.headers = []) := by
    by_cases hi : i = 0
    · simp [hi]
    · simp [hi]
  rw [and_comm, ← hold, ← hheaders]
  exact ⟨And.left, shows_of_headers⟩

section blank

/-- `GET /` with one header `Host: a`, so many spaces standing behind the colon. -/
def hostRequest (blanks : ℕ) : RequestText where
  start := ascii "GET "
  target := ascii "/"
  version := ascii " HTTP/1.1\r\n"
  headers :=
    [.plain (ascii "Host") blanks (ascii "a") (by decide) (by decide +kernel) (by decide +kernel)]
  body := []
  target_ne := root_ne_nil

/-- **A value right behind its colon** is not read: of `Host:a` the line end is taken. -/
theorem not_shows_without_blank :
    ∃ st actions req t, ((hostRequest 0).llhttp 1 1 1).Correct ∧
      channelRead unlimited ((hostRequest 0).llhttp 1 1 1) .fresh
        (.buffer (.copyOf (hostRequest 0).text)) = some (st, actions) ∧
      (firedRequests actions)[0]? = some req ∧ req.PointsAt (hostRequest 0).text ∧
      (((hostRequest 0).llhttp 1 1 1).execute (hostRequest 0).text).callbacks = t.callbacks ∧
      (hostRequest 0).FoundBy t ∧
      (req.header (ascii "Host")).1 = ascii "\r" ∧ ¬ req.Shows (hostRequest 0) := by
  refine ⟨_, _, (hostRequest 0).decoded 1 1 1, _, (hostRequest 0).llhttp_correct 1 1 1,
    (hostRequest 0).channelRead_alone 1 1 1 rfl, rfl, (hostRequest 0).decoded_pointsAt 1 1 1,
    (hostRequest 0).llhttp_callbacks 1 1 1, (hostRequest 0).foundBy_recording 1 1 1,
    by decide +kernel, ?_⟩
  intro h
  exact absurd h.1 (by decide +kernel)

/-- With one space it is. -/
theorem shows_host : ((hostRequest 1).decoded 1 1 1).Shows (hostRequest 1) := by
  refine (shows_iff ((hostRequest 1).llhttp_correct 1 1 1)
    ((hostRequest 1).channelRead_alone 1 1 1 rfl) (i := 0) rfl
    ((hostRequest 1).decoded_pointsAt 1 1 1) ((hostRequest 1).llhttp_callbacks 1 1 1)
    ((hostRequest 1).foundBy_recording 1 1 1)).mpr ?_
  exact ⟨by decide, fun _ => rfl⟩

end blank

end HttpServerCodec

end XNetty
