import XNetty.Http.Recording
import XNetty.Http.Segmentation

/-!
# Streams of requests

A connection receives a stream of requests in buffers that are cut anywhere. Every request
is delivered once and in order, whatever the cutting, until a buffer makes the codec copy
the part of a request that it keeps onto itself.

## Main definitions

* `HttpServerCodec.Overlaps` — some buffer makes the codec copy a part onto itself.
* `HttpServerCodec.Delivers` — what a connection delivers, when its behaviour is defined.
* `HttpServerCodec.readAll_segmentation` — the law.
-/

namespace XNetty

namespace HttpServerCodec

open Incremental

/-- Of the buffers behind position `start`, one begins inside a request, brings the end of
it, and brings more of a later request than has come from the first one to there. -/
def OverlapsFrom (ps : List Bytes) : ℕ → List Bytes → Prop
  | _, [] => False
  | start, c :: cs =>
    let stop := start + c.length
    let front := Framing.lastBoundary ps start
    let back := Framing.lastBoundary ps stop
    (front < start ∧ front < back ∧ back - front < stop - back) ∨ OverlapsFrom ps stop cs

/-- Cutting the requests `ps` into these buffers makes the codec copy a part onto itself. -/
def Overlaps (ps chunks : List Bytes) : Prop := OverlapsFrom ps 0 chunks

instance decidableOverlapsFrom (ps : List Bytes) :
    ∀ (start : ℕ) (chunks : List Bytes), Decidable (OverlapsFrom ps start chunks)
  | _, [] => inferInstanceAs (Decidable False)
  | start, c :: cs =>
    have := decidableOverlapsFrom ps (start + c.length) cs
    inferInstanceAs (Decidable (_ ∨ _))

instance (ps chunks : List Bytes) : Decidable (Overlaps ps chunks) :=
  inferInstanceAs (Decidable (OverlapsFrom ps 0 chunks))

variable {ll : Llhttp}

/-- What a fresh connection delivers: its behaviour is defined, these are the requests, and
nothing is kept. -/
def Delivers (ll : Llhttp) (bufs : List ByteBuf) (views : List RequestView) : Prop :=
  ∃ st actions, readAll unlimited ll .fresh bufs = some (st, actions) ∧
    (firedRequests actions).map HttpRequest.view = views ∧ st.leftover.readable = []

theorem Delivers.unique {bufs : List ByteBuf} {views views' : List RequestView}
    (h : Delivers ll bufs views) (h' : Delivers ll bufs views') : views = views' := by
  obtain ⟨st, actions, hrun, rfl, -⟩ := h
  obtain ⟨st', actions', hrun', rfl, -⟩ := h'
  rw [hrun] at hrun'
  obtain ⟨rfl, rfl⟩ := Prod.mk.inj (Option.some.inj hrun')
  rfl

theorem holds_fresh (hll : ll.Correct) : Holds ll .fresh [] := by
  refine ⟨rfl, rfl, pending_fresh ll [], ?_⟩
  rw [requestSize_eq_none hll]
  intro hmsg
  obtain ⟨p, hp, hcomplete⟩ := hll.reports hmsg
  have hpos := hll.length_pos hcomplete
  rw [List.prefix_nil.mp hp] at hpos
  exact absurd hpos (lt_irrefl 0)

section run

variable (hll : ll.Correct) {ps : List Bytes}
  (hps : ∀ p ∈ ps, ll.Complete p ∧ startsRequest p = true)
include hll hps

theorem isMessage_of_complete : ∀ p ∈ ps, hll.framing.IsMessage p :=
  fun p hp => (hps p hp).1.requestSize

/-- **When a read collides**, in positions of the stream. -/
theorem collides_iff {seen c : Bytes} (hc : c ≠ []) (hpre : seen ++ c <+: ps.flatten) :
    Collides (hll.framing.decoder.drain () seen).rest
        ((hll.framing.decoder.drain () seen).rest ++ c).length
        (hll.framing.decoder.drain () ((hll.framing.decoder.drain () seen).rest ++ c)) ↔
      Framing.lastBoundary ps seen.length < seen.length ∧
      Framing.lastBoundary ps seen.length < Framing.lastBoundary ps (seen.length + c.length) ∧
      Framing.lastBoundary ps (seen.length + c.length) - Framing.lastBoundary ps seen.length <
        seen.length + c.length - Framing.lastBoundary ps (seen.length + c.length) := by
  have hmsg := isMessage_of_complete hll hps
  have hfront := Framing.length_rest hmsg ((List.prefix_append seen c).trans hpre)
  have hback := Framing.length_rest hmsg hpre
  rw [Framing.drain_append seen hc, List.length_append] at hback
  have hle := Framing.length_rest_le (f := hll.framing)
    ((hll.framing.decoder.drain () seen).rest ++ c)
  have hout := @Framing.drain_out_eq_nil _ hll.framing
    ((hll.framing.decoder.drain () seen).rest ++ c)
  rw [List.length_append] at hle hout
  unfold Collides
  rw [ne_eq, ne_eq, ← List.length_eq_zero_iff, hout, List.length_append]
  dsimp only at hback
  omega

/-- Where nothing is kept, the next buffer starts with a request. -/
theorem startsRequest_of_rest {seen c : Bytes} (hc : c ≠ []) (hpre : seen ++ c <+: ps.flatten)
    (hrest : (hll.framing.decoder.drain () seen).rest = []) : startsRequest c = true := by
  obtain ⟨qs, rs, rfl, rfl⟩ := Framing.of_rest_eq_nil (isMessage_of_complete hll hps)
    ((List.prefix_append seen c).trans hpre) hrest
  rw [List.flatten_append, List.prefix_append_right_inj] at hpre
  cases rs with
  | nil => exact absurd (List.prefix_nil.mp hpre) hc
  | cons r rs =>
    obtain ⟨hr, hstart⟩ := hps r (by simp)
    have hne : r ≠ [] := List.ne_nil_of_length_pos (hll.length_pos hr)
    obtain ⟨b, c, rfl⟩ := List.exists_cons_of_ne_nil hc
    obtain ⟨b', r, rfl⟩ := List.exists_cons_of_ne_nil hne
    obtain ⟨tail, htail⟩ := hpre
    obtain ⟨rfl, -⟩ := List.cons.inj htail
    exact hstart

/-- **A run over a stream**, `seen` having come before: it is undefined when some buffer
makes parts overlap, and otherwise delivers every request. -/
theorem readAll_stream {st : CodecState} {seen : Bytes} {bufs : List ByteBuf}
    (hst : Holds ll st (hll.framing.decoder.drain () seen).rest)
    (hbufs : ∀ b ∈ bufs, b.readable ≠ [])
    (hcut : seen ++ (bufs.map ByteBuf.readable).flatten = ps.flatten) :
    (OverlapsFrom ps seen.length (bufs.map ByteBuf.readable) →
      readAll unlimited ll st bufs = none) ∧
    (¬ OverlapsFrom ps seen.length (bufs.map ByteBuf.readable) →
      ∃ st' actions, readAll unlimited ll st bufs = some (st', actions) ∧ Holds ll st' [] ∧
        (hll.framing.decoder.drain () seen).out.map (wholeView ll) ++
          (firedRequests actions).map HttpRequest.view = ps.map (wholeView ll)) := by
  induction bufs generalizing st seen with
  | nil =>
    simp only [List.map_nil, List.flatten_nil, List.append_nil] at hcut
    rw [hcut, Framing.drain_flatten (isMessage_of_complete hll hps)] at hst
    rw [hcut, Framing.drain_flatten (isMessage_of_complete hll hps)]
    exact ⟨False.elim, fun _ => ⟨st, [], rfl, hst, by simp⟩⟩
  | cons b bufs ih =>
    obtain ⟨hb, hbufs⟩ := List.forall_mem_cons.mp hbufs
    rw [List.map_cons, List.flatten_cons, ← List.append_assoc] at hcut
    have hpre : seen ++ b.readable <+: ps.flatten := ⟨_, hcut⟩
    have hcollides := collides_iff hll hps hb hpre
    simp only [List.map_cons, OverlapsFrom]
    rw [← hcollides]
    by_cases hc : Collides (hll.framing.decoder.drain () seen).rest
        ((hll.framing.decoder.drain () seen).rest ++ b.readable).length
        (hll.framing.decoder.drain () ((hll.framing.decoder.drain () seen).rest ++ b.readable))
    · refine ⟨fun _ => ?_, fun h => absurd (Or.inl hc) h⟩
      rw [readAll, channelRead_collides hll hst hb hc]
    · obtain ⟨st₁, first, hread, hst₁, hviews⟩ := channelRead_reads hll hst hb
        (startsRequest_of_rest hll hps hb hpre) hc
      have happend := Framing.drain_append (f := hll.framing) seen hb
      have hrest : (hll.framing.decoder.drain () (seen ++ b.readable)).rest =
          (hll.framing.decoder.drain () ((hll.framing.decoder.drain () seen).rest ++
            b.readable)).rest := by rw [happend]
      rw [← hrest] at hst₁
      obtain ⟨hundefined, hdefined⟩ := ih hst₁ hbufs hcut
      rw [List.length_append] at hundefined hdefined
      simp only [readAll, hread]
      refine ⟨fun h => ?_, fun h => ?_⟩
      · rw [hundefined (h.resolve_left hc)]
        rfl
      · obtain ⟨st', later, hrun, hst', hlater⟩ := hdefined fun h' => h (.inr h')
        refine ⟨st', first ++ later, by rw [hrun]; rfl, hst', ?_⟩
        rw [happend, List.map_append] at hlater
        rw [firedRequests_append, List.map_append, hviews, ← List.append_assoc]
        exact hlater

/-- The requests of a stream that is cut without overlaps. -/
theorem delivers_iff {bufs : List ByteBuf} (hbufs : ∀ b ∈ bufs, b.readable ≠ [])
    (hcut : (bufs.map ByteBuf.readable).flatten = ps.flatten) (views : List RequestView) :
    Delivers ll bufs views ↔
      ¬ Overlaps ps (bufs.map ByteBuf.readable) ∧ views = ps.map (wholeView ll) := by
  have hfresh : Holds ll .fresh (hll.framing.decoder.drain () []).rest := by
    rw [Decoder.drain_nil]
    exact holds_fresh hll
  obtain ⟨hundefined, hdefined⟩ := readAll_stream hll hps hfresh hbufs hcut
  constructor
  · intro h
    have hno : ¬ Overlaps ps (bufs.map ByteBuf.readable) := by
      intro hover
      obtain ⟨st, actions, hrun, -⟩ := h
      rw [hundefined hover] at hrun
      cases hrun
    refine ⟨hno, ?_⟩
    obtain ⟨st, actions, hrun, hst, hviews⟩ := hdefined hno
    rw [Decoder.drain_nil] at hviews
    exact h.unique ⟨st, actions, hrun, hviews, hst.readable⟩
  · rintro ⟨hno, rfl⟩
    obtain ⟨st, actions, hrun, hst, hviews⟩ := hdefined hno
    rw [Decoder.drain_nil] at hviews
    exact ⟨st, actions, hrun, hviews, hst.readable⟩

end run

/-- The stream `ps`, cut into `bufs`, is decoded as in the one buffer `one`: a request for
each of `ps`, in their order, as each of them is decoded alone. -/
def DecodedAsOne (ll : Llhttp) (ps : List Bytes) (one : ByteBuf) (bufs : List ByteBuf) : Prop :=
  ∃ views, Delivers ll [one] views ∧ Delivers ll bufs views ∧
    List.Forall₂ (fun p view => ∀ b : ByteBuf, b.readable = p → Delivers ll [b] [view]) ps views

section whole

variable (hll : ll.Correct) {ps : List Bytes}
  (hps : ∀ p ∈ ps, ll.Complete p ∧ startsRequest p = true)
include hll hps

/-- A stream in one buffer. -/
theorem delivers_one {one : ByteBuf} (hone : one.readable = ps.flatten) :
    Delivers ll [one] (ps.map (wholeView ll)) := by
  by_cases hempty : one.readable = []
  · -- there is no request, and the empty buffer is passed on
    have hnone : ps = [] := by
      rcases ps with _ | ⟨p, ps⟩
      · rfl
      · have hpos := hll.length_pos (hps p (by simp)).1
        rw [hempty, List.flatten_cons, eq_comm, List.append_eq_nil_iff] at hone
        exact absurd (List.length_eq_zero_iff.mpr hone.1) hpos.ne'
    subst hnone
    have hbytes := (ByteBuf.readable_eq_nil_iff one).mp hempty
    exact ⟨.fresh, [.fireRead (.buffer one)], by simp [readAll, channelRead, hbytes], rfl, rfl⟩
  · refine (delivers_iff hll hps (by simpa using hempty) (by simpa using hone) _).mpr ⟨?_, rfl⟩
    simp [Overlaps, OverlapsFrom]

/-- **Segmentation.** A stream of requests, cut anywhere, is decoded as in one buffer exactly
when no buffer makes the codec copy a part of a request onto itself. -/
theorem readAll_segmentation {one : ByteBuf} {bufs : List ByteBuf}
    (hbufs : ∀ b ∈ bufs, b.readable ≠ [])
    (hcut : (bufs.map ByteBuf.readable).flatten = ps.flatten)
    (hone : one.readable = ps.flatten) :
    DecodedAsOne ll ps one bufs ↔ ¬ Overlaps ps (bufs.map ByteBuf.readable) := by
  have hwhole := delivers_one hll hps hone
  constructor
  · rintro ⟨views, -, hviews, -⟩
    exact ((delivers_iff hll hps hbufs hcut views).mp hviews).1
  · intro hno
    refine ⟨_, hwhole, (delivers_iff hll hps hbufs hcut _).mpr ⟨hno, rfl⟩, ?_⟩
    rw [List.forall₂_map_right_iff, List.forall₂_same]
    intro p hp b hb
    have hone : Delivers ll [b] ([p].map (wholeView ll)) :=
      delivers_one hll (by simpa using hps p hp) (by simpa using hb)
    exact hone

end whole

section overlap

def longRequest : RequestText := getRequest (ascii "/abcdefghijklmnopqrstuvwxyz") (by decide)

/-- The two of them on record. -/
def rootAndLong : List Recording :=
  [rootRequest.recording 1 1 1, longRequest.recording 1 1 1]

theorem rootAndLong_sound : Recording.Sound rootAndLong := by decide +kernel

theorem rootAndLong_requests : ∀ p ∈ [rootRequest.text, longRequest.text],
    (Llhttp.ofRecordings rootAndLong).Complete p ∧ startsRequest p = true := by
  intro p hp
  refine ⟨(Llhttp.complete_iff rootAndLong_sound).mpr ?_, ?_⟩
  · rw [List.mem_pair] at hp
    rcases hp with rfl | rfl
    · exact ⟨rootRequest.recording 1 1 1, by simp [rootAndLong], rfl⟩
    · exact ⟨longRequest.recording 1 1 1, by simp [rootAndLong], rfl⟩
  · revert p
    decide

/-- The stream of both, cut behind its first byte and so many bytes into the second. -/
def cutAt (n : ℕ) : List ByteBuf :=
  [.copyOf (rootRequest.text.take 1),
    .copyOf (rootRequest.text.drop 1 ++ longRequest.text.take n),
    .copyOf (longRequest.text.drop n)]

/-- **A cutting that is not decoded**: after the first byte, all of the first request but
that byte arrives with twenty bytes of the second, more than the first is long. -/
theorem not_decodedAsOne_overlap :
    ¬ ∀ (ll : Llhttp), ll.Correct → ∀ (ps : List Bytes) (one : ByteBuf) (bufs : List ByteBuf),
      (∀ p ∈ ps, ll.Complete p ∧ startsRequest p = true) → (∀ b ∈ bufs, b.readable ≠ []) →
      (bufs.map ByteBuf.readable).flatten = ps.flatten → one.readable = ps.flatten →
      DecodedAsOne ll ps one bufs := by
  intro h
  obtain ⟨views, -, ⟨st, actions, hrun, -⟩, -⟩ := h _
    (Llhttp.ofRecordings_correct rootAndLong_sound) [rootRequest.text, longRequest.text]
    (.copyOf (rootRequest.text ++ longRequest.text)) (cutAt 20) rootAndLong_requests
    (by decide) (by decide) (by decide)
  have hundefined : (readAll unlimited (Llhttp.ofRecordings rootAndLong) .fresh
      (cutAt 20)).isNone = true := by decide +kernel
  rw [hrun] at hundefined
  cases hundefined

/-- The same stream, cut two bytes earlier. -/
theorem readAll_segmentation_cut :
    DecodedAsOne (Llhttp.ofRecordings rootAndLong) [rootRequest.text, longRequest.text]
      (.copyOf (rootRequest.text ++ longRequest.text)) (cutAt 18) :=
  (readAll_segmentation (Llhttp.ofRecordings_correct rootAndLong_sound) rootAndLong_requests
    (by decide) (by decide) (by decide)).mpr (by decide)

end overlap

end HttpServerCodec

end XNetty
