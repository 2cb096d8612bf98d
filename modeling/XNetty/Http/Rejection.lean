import XNetty.Http.Delivery

/-!
# Requests behind a rejected one

A request whose `Content-Length` is over the limit is answered with 413 and stays in the
codec's state, headers included. The next request is then judged by both header lists.

## Main definitions

* `HttpServerCodec.Outcome`, `HttpServerCodec.outcomes` — what happens to each request.
* `HttpServerCodec.judge` — the verdict on a request, given the headers left behind.
* `HttpServerCodec.judgedAlone_iff` — when every request is judged by its own headers.
-/

namespace XNetty

namespace HttpServerCodec

/-- The header lists of the requests that are passed on, and the responses written. -/
structure Outcome where
  delivered : List (List (Bytes × Bytes))
  answered : List HttpResponse
  deriving DecidableEq

def outcome (actions : List Action) : Outcome :=
  ⟨(firedRequests actions).map fun req => req.ensureHeadersParsed.headers, responses actions⟩

variable (codec : HttpServerCodec) (ll : Llhttp)

/-- The outcomes of buffers read one after the other. -/
def outcomes (st : CodecState) : List ByteBuf → Option (List Outcome)
  | [] => some []
  | buf :: bufs =>
    match channelRead codec ll st (.buffer buf) with
    | none => none
    | some r => (outcomes r.1 bufs).map (outcome r.2 :: ·)

/-- Every buffer has the outcome that it has as the first one of a connection. -/
def JudgedAlone (bufs : List ByteBuf) : Prop :=
  ∃ os, outcomes codec ll .fresh bufs = some os ∧
    bufs.map (fun buf => outcomes codec ll .fresh [buf]) = os.map fun o => some [o]

/-! ## The verdict on one request -/

/-- The header list of a request alone. -/
def ownHeaders (p : Bytes) : List (Bytes × Bytes) := (wholeView ll p).headers

/-- Its header section is over the limit. -/
def sectionTooLarge (p : Bytes) : Bool :=
  (runCallbacks p { req := {}, maxHeaderSize := codec.maxHeaderSize }
    (ll.execute p).callbacks).headerTooLarge

/-- A request within the header limit whose own headers announce too large a body. -/
def TooBig (p : Bytes) : Prop :=
  startsRequest p = true ∧ sectionTooLarge codec ll p = false ∧ codec.OverLimit (ownHeaders ll p)

/-- A request within both limits. -/
def Fits (p : Bytes) : Prop :=
  startsRequest p = true ∧ sectionTooLarge codec ll p = false ∧ ¬ codec.OverLimit (ownHeaders ll p)

instance (p : Bytes) : Decidable (TooBig codec ll p) := inferInstanceAs (Decidable (_ ∧ _ ∧ _))
instance (p : Bytes) : Decidable (Fits codec ll p) := inferInstanceAs (Decidable (_ ∧ _ ∧ _))

/-- The verdict on `p` when a rejected request has left the headers `old` behind, and the
headers left behind next. -/
def judge (old : List (Bytes × Bytes)) (p : Bytes) : Outcome × List (Bytes × Bytes) :=
  if startsRequest p = false then (⟨[], []⟩, old)
  else if sectionTooLarge codec ll p = true then (⟨[], [headerTooLarge]⟩, old)
  else if codec.OverLimit (old ++ ownHeaders ll p) then
    (⟨[], [bodyTooLarge]⟩, old ++ ownHeaders ll p)
  else (⟨[old ++ ownHeaders ll p], []⟩, [])

def judgeAll : List (Bytes × Bytes) → List Bytes → List Outcome
  | _, [] => []
  | old, p :: ps => (judge codec ll old p).1 :: judgeAll (judge codec ll old p).2 ps

variable {codec ll}

theorem findHeader_append (old new : List (Bytes × Bytes)) (key : Bytes) :
    HttpRequest.findHeader (old ++ new) key = HttpRequest.findHeader old key ∨
      HttpRequest.findHeader (old ++ new) key = HttpRequest.findHeader new key := by
  unfold HttpRequest.findHeader
  simp only [List.find?_append]
  cases hold : old.find? fun kv => decide (kv.1 = key) with
  | some kv => exact .inl (by simp)
  | none =>
    cases hnew : new.find? fun kv => decide (kv.1 = key) with
    | some kv => exact .inr (by simp)
    | none =>
      -- no exact match: the first name that is equal up to case decides
      cases hcase : old.find? fun kv => decide (kv.1.map toLower = key.map toLower) with
      | some kv => exact .inl (by simp)
      | none => exact .inr (by simp)

/-- Over the limit twice is over the limit. -/
theorem OverLimit.append {old new : List (Bytes × Bytes)} (hold : codec.OverLimit old)
    (hnew : codec.OverLimit new) : codec.OverLimit (old ++ new) := by
  unfold OverLimit contentLength at *
  rcases findHeader_append old new (ascii "Content-Length") with h | h
  · rwa [h]
  · rwa [h]

theorem OverLimit.ne_nil {headers : List (Bytes × Bytes)} (h : codec.OverLimit headers) :
    headers ≠ [] := by
  rintro rfl
  exact h.2.1 rfl

/-- Alone, a request leaves headers behind exactly when it is too big. -/
theorem judge_nil_left (p : Bytes) :
    (judge codec ll [] p).2 = if TooBig codec ll p then ownHeaders ll p else [] := by
  unfold judge TooBig
  by_cases hstart : startsRequest p = true <;>
    by_cases hlarge : sectionTooLarge codec ll p = true <;>
      by_cases hover : codec.OverLimit (ownHeaders ll p) <;> simp [hstart, hlarge, hover]

/-- **Behind headers over the limit**, a request is judged as it is alone exactly when it
does not fit, and headers over the limit stay behind. -/
theorem judge_behind {old : List (Bytes × Bytes)} (hold : codec.OverLimit old) (p : Bytes) :
    ((judge codec ll old p).1 = (judge codec ll [] p).1 ↔ ¬ Fits codec ll p) ∧
      (¬ Fits codec ll p → codec.OverLimit (judge codec ll old p).2) := by
  have hne := hold.ne_nil
  unfold judge Fits
  by_cases hstart : startsRequest p = true
  · by_cases hlarge : sectionTooLarge codec ll p = true
    · simp [hstart, hlarge, hold]
    · by_cases hover : codec.OverLimit (ownHeaders ll p)
      · have hboth := hold.append hover
        simp [hstart, hlarge, hover, hboth]
      · by_cases hboth : codec.OverLimit (old ++ ownHeaders ll p)
        · simp [hstart, hlarge, hover, hboth]
        · simp [hstart, hlarge, hover, hboth, hne]
  · simp [hstart, hold]

theorem judgeAll_behind {old : List (Bytes × Bytes)} (hold : codec.OverLimit old)
    (ps : List Bytes) :
    judgeAll codec ll old ps = ps.map (fun p => (judge codec ll [] p).1) ↔
      ∀ p ∈ ps, ¬ Fits codec ll p := by
  induction ps generalizing old with
  | nil => simp [judgeAll]
  | cons p ps ih =>
    obtain ⟨hsame, hleft⟩ := judge_behind  hold p
    rw [judgeAll, List.map_cons, List.cons.injEq, hsame, List.forall_mem_cons]
    constructor
    · rintro ⟨hp, hps⟩
      exact ⟨hp, (ih (hleft hp)).mp hps⟩
    · rintro ⟨hp, hps⟩
      exact ⟨hp, (ih (hleft hp)).mpr hps⟩

/-- **The verdicts on a sequence of requests** are those on each of them alone exactly when no
request that fits comes behind one that is too big. -/
theorem judgeAll_iff (ps : List Bytes) :
    judgeAll codec ll [] ps = ps.map (fun p => (judge codec ll [] p).1) ↔
      ps.Pairwise fun p q => ¬ (TooBig codec ll p ∧ Fits codec ll q) := by
  induction ps with
  | nil => simp [judgeAll]
  | cons p ps ih =>
    rw [judgeAll, List.map_cons, List.cons.injEq, and_iff_right rfl, judge_nil_left,
      List.pairwise_cons]
    by_cases hbig : TooBig codec ll p
    · rw [if_pos hbig, judgeAll_behind hbig.2.2]
      constructor
      · intro hps
        refine ⟨fun q hq h => hps q hq h.2, ?_⟩
        exact List.Pairwise.imp_of_mem (fun _ hq _ h => hps _ hq h.2) (List.pairwise_of_forall
          (fun _ _ => trivial) : List.Pairwise (fun _ _ => True) ps)
      · intro hps q hq hfits
        exact hps.1 q hq ⟨hbig, hfits⟩
    · rw [if_neg hbig, ih]
      constructor
      · intro hps
        exact ⟨fun q _ h => hbig h.1, hps⟩
      · exact And.right

/-! ## The codec gives these verdicts -/

section codec

theorem ownHeaders_eq {p : Bytes} {t : Parse} (ht : (ll.execute p).callbacks = t.callbacks)
    (req : HttpRequest) :
    (t.attach p p.length req).ensureHeadersParsed.headers = req.headers ++ ownHeaders ll p := by
  unfold ownHeaders
  rw [wholeView_eq ht, HttpRequest.view, whole, HttpRequest.ensureHeadersParsed_idem,
    headers_attach, headers_attach]
  rfl

theorem sectionTooLarge_iff {p : Bytes} {t : Parse}
    (ht : (ll.execute p).callbacks = t.callbacks) :
    sectionTooLarge codec ll p = true ↔ t.TooLarge codec.maxHeaderSize := by
  unfold sectionTooLarge
  rw [ht]
  by_cases hlarge : t.TooLarge codec.maxHeaderSize
  · simp [t.runCallbacks_tooLarge hlarge, hlarge]
  · simp [t.runCallbacks_complete hlarge, hlarge]

variable (hll : ll.Correct)
include hll

/-- **A request in a buffer of its own** gets the verdict. -/
theorem channelRead_judge {st : CodecState} (hidle : st.leftover.readable = []) {buf : ByteBuf}
    (hbuf : ll.Complete buf.readable) :
    ∃ st' actions, channelRead codec ll st (.buffer buf) = some (st', actions) ∧
      st'.leftover.readable = [] ∧
      (outcome actions, st'.request.headers) =
        judge codec ll st.request.headers buf.readable := by
  obtain ⟨t, ht, hin⟩ := hll.parses hbuf
  unfold judge
  by_cases hstart : startsRequest buf.readable = true
  · have hheaders := ownHeaders_eq ht st.request
    rw [channelRead_whole hll hbuf ht hin st rfl hidle hstart]
    simp only [hstart, Bool.true_eq_false, if_false, sectionTooLarge_iff ht, ← hheaders]
    by_cases hlarge : t.TooLarge codec.maxHeaderSize
    · exact ⟨_, _, if_pos hlarge, rfl, (if_pos hlarge).symm⟩
    · by_cases hover : codec.OverLimit
          (t.attach buf.readable buf.readable.length st.request).ensureHeadersParsed.headers
      · simp only [if_neg hlarge, if_pos hover]
        exact ⟨_, _, rfl, rfl, rfl⟩
      · simp only [if_neg hlarge, if_neg hover]
        refine ⟨_, _, rfl, rfl, ?_⟩
        rw [outcome, firedRequests_noted, List.map_singleton, HttpRequest.ensureHeadersParsed_idem]
        rfl
  · have hother : startsRequest buf.readable = false := by simpa using hstart
    refine ⟨_, _, channelRead_of_other hidle hother, hidle, ?_⟩
    rw [if_pos hother]
    rfl

theorem outcomes_eq_judgeAll {bufs : List ByteBuf} (hbufs : ∀ b ∈ bufs, ll.Complete b.readable)
    {st : CodecState} (hidle : st.leftover.readable = []) :
    outcomes codec ll st bufs =
      some (judgeAll codec ll st.request.headers (bufs.map ByteBuf.readable)) := by
  induction bufs generalizing st with
  | nil => rfl
  | cons buf bufs ih =>
    obtain ⟨hbuf, hbufs⟩ := List.forall_mem_cons.mp hbufs
    obtain ⟨st', actions, hread, hidle', hjudge⟩ := channelRead_judge hll hidle hbuf
    rw [outcomes, hread, List.map_cons, judgeAll, ← hjudge]
    simp only [ih hbufs hidle']
    rfl

/-- **Each request is judged by its own headers** exactly when no request that fits comes
behind one that is too big. -/
theorem judgedAlone_iff {bufs : List ByteBuf} (hbufs : ∀ b ∈ bufs, ll.Complete b.readable) :
    JudgedAlone codec ll bufs ↔
      bufs.Pairwise fun b b' => ¬ (TooBig codec ll b.readable ∧ Fits codec ll b'.readable) := by
  have hrun : outcomes codec ll .fresh bufs =
      some (judgeAll codec ll [] (bufs.map ByteBuf.readable)) :=
    outcomes_eq_judgeAll hll hbufs rfl
  have halone : bufs.map (fun buf => outcomes codec ll .fresh [buf]) =
      (bufs.map fun buf => (judge codec ll [] buf.readable).1).map fun o => some [o] := by
    rw [List.map_map]
    refine List.map_congr_left fun buf hbuf => ?_
    have hone : outcomes codec ll .fresh [buf] =
        some (judgeAll codec ll [] [buf.readable]) :=
      outcomes_eq_judgeAll hll (by simpa using hbufs buf hbuf) rfl
    exact hone
  have hsome : Function.Injective fun o : Outcome => some [o] := by
    intro o o' h
    simpa using h
  have hverdicts := @judgeAll_iff codec ll (bufs.map ByteBuf.readable)
  rw [List.pairwise_map, List.map_map] at hverdicts
  unfold JudgedAlone
  rw [hrun, halone, ← hverdicts]
  constructor
  · rintro ⟨os, hos, hall⟩
    obtain rfl := Option.some.inj hos
    exact (List.map_injective_iff.mpr hsome hall).symm
  · intro heq
    exact ⟨_, rfl, congrArg _ heq.symm⟩

end codec

section rejected

/-- A request with a body of three bytes and one without any header, on record. -/
def postAndGet : List Recording := [postRequest.recording 3 1 1, rootRequest.recording 1 1 1]

theorem postAndGet_sound : Recording.Sound postAndGet := by decide +kernel

theorem postAndGet_complete : ∀ b ∈ [ByteBuf.copyOf postRequest.text, .copyOf rootRequest.text],
    (Llhttp.ofRecordings postAndGet).Complete b.readable := by
  intro b hb
  rw [List.mem_pair] at hb
  rcases hb with rfl | rfl
  · rw [ByteBuf.readable_copyOf]
    exact Llhttp.complete_of_mem postAndGet_sound
      (List.mem_cons_self : postRequest.recording 3 1 1 ∈ postAndGet)
  · rw [ByteBuf.readable_copyOf]
    exact Llhttp.complete_of_mem postAndGet_sound
      (by simp [postAndGet] : rootRequest.recording 1 1 1 ∈ postAndGet)

/-- **A request rejected for another's length**: with two bytes as the limit the first of the
two is answered with 413, and so is the second, which has no body. -/
theorem not_judgedAlone_behind :
    (Llhttp.ofRecordings postAndGet).Correct ∧
    (∀ b ∈ [ByteBuf.copyOf postRequest.text, .copyOf rootRequest.text],
      (Llhttp.ofRecordings postAndGet).Complete b.readable) ∧
    outcomes { maxBodySize := 2 } (.ofRecordings postAndGet) .fresh
        [.copyOf postRequest.text, .copyOf rootRequest.text] =
      some [⟨[], [bodyTooLarge]⟩, ⟨[], [bodyTooLarge]⟩] ∧
    outcomes { maxBodySize := 2 } (.ofRecordings postAndGet) .fresh [.copyOf rootRequest.text] =
      some [⟨[[]], []⟩] ∧
    ¬ JudgedAlone { maxBodySize := 2 } (.ofRecordings postAndGet)
        [.copyOf postRequest.text, .copyOf rootRequest.text] := by
  have hboth : outcomes { maxBodySize := 2 } (.ofRecordings postAndGet) .fresh
        [.copyOf postRequest.text, .copyOf rootRequest.text] =
      some [⟨[], [bodyTooLarge]⟩, ⟨[], [bodyTooLarge]⟩] := by decide +kernel
  have halone : outcomes { maxBodySize := 2 } (.ofRecordings postAndGet) .fresh
        [.copyOf rootRequest.text] = some [⟨[[]], []⟩] := by decide +kernel
  refine ⟨Llhttp.ofRecordings_correct postAndGet_sound, postAndGet_complete, hboth, halone, ?_⟩
  rintro ⟨os, hos, hall⟩
  rw [hboth] at hos
  obtain rfl := Option.some.inj hos
  simp [halone] at hall

/-- The other way round, each of them has its own outcome. -/
theorem judgedAlone_before :
    JudgedAlone { maxBodySize := 2 } (.ofRecordings postAndGet)
      [.copyOf rootRequest.text, .copyOf postRequest.text] :=
  (judgedAlone_iff (Llhttp.ofRecordings_correct postAndGet_sound)
    (fun b hb => postAndGet_complete b (by simpa [or_comm] using hb))).mpr (by decide +kernel)

end rejected

end HttpServerCodec

end XNetty
