import XNetty.Channel.Propagation

/-!
# Flushing and closing from a handler

`ctx->fireWrite` goes on in front of the handler that calls it. `ctx->fireFlush` and
`ctx->fireClose` begin their search at the handler itself, so an outbound handler that passes the
event on gets it back.

## Main definitions

* `ChannelPipeline.fireFlush`, `ChannelPipeline.fireClose` — who sees the event, when every
  outbound handler passes it on.
* `ChannelPipeline.fireFlush_fireClose_iff` — the event goes along the handlers in front only where
  none is outbound.
-/

namespace XNetty

variable {H : Type*} [ChannelHandler H]

open ChannelHandler

namespace ChannelPipeline

omit [ChannelHandler H] in
/-- `forPrevOutbound` on the first `count` entries: the one whose handler is called. -/
def forPrevOutbound (hs : List (HandlerEntry H)) (count : ℕ) : Option (HandlerEntry H) :=
  (hs.take count).reverse.find? fun e => e.outbound.isSome

omit [ChannelHandler H] in
/-- An event that every outbound handler passes on with its context, which looks at all entries up
to its own place: those that see it. `none` when there are more of them than `fuel`. -/
def passBack (hs : List (HandlerEntry H)) : ℕ → ℕ → Option (List (HandlerEntry H))
  | 0, _ => none
  | fuel + 1, count =>
    match forPrevOutbound hs count with
    | some e => (passBack hs fuel (e.ctx.index + 1)).map (e :: ·)
    | none => some []

omit [ChannelHandler H] in
/-- `ChannelHandlerContext::fireFlush`. -/
def fireFlush (hs : List (HandlerEntry H)) (fuel : ℕ) (ctx : ChannelHandlerContext H) :
    Option (List (HandlerEntry H)) :=
  passBack hs fuel (ctx.index + 1)

omit [ChannelHandler H] in
/-- `ChannelHandlerContext::fireClose`. -/
def fireClose (hs : List (HandlerEntry H)) (fuel : ℕ) (ctx : ChannelHandlerContext H) :
    Option (List (HandlerEntry H)) :=
  passBack hs fuel (ctx.index + 1)

/-- The outbound handlers in front of a place, from there to the front. -/
def outboundBefore (hs : List (HandlerEntry H)) (i : ℕ) : List (HandlerEntry H) :=
  (hs.take i).reverse.filter fun e => isOutbound e.handler

variable {hs : List (HandlerEntry H)}

/-- The handler that has been found is found again from its own place. -/
theorem forPrevOutbound_self (hlinked : Linked hs) {count : ℕ} {e : HandlerEntry H}
    (h : forPrevOutbound hs count = some e) : forPrevOutbound hs (e.ctx.index + 1) = some e := by
  obtain ⟨hout, after, before, hsplit, -⟩ := List.find?_eq_some_iff_append.mp h
  have htake : hs.take count = before.reverse ++ e :: after.reverse := by
    rw [← List.reverse_reverse (hs.take count), hsplit]
    simp
  have hget : hs[before.length]? = some e := by
    have hlen := congrArg List.length htake
    simp only [List.length_take, List.length_append, List.length_reverse,
      List.length_cons] at hlen
    rw [← List.getElem?_take_of_lt (show before.length < count by omega), htake,
      List.getElem?_append_right (by simp)]
    simp
  have hindex := (hlinked _ e hget).index
  unfold forPrevOutbound
  rw [hindex, List.take_add_one, hget]
  simp [hout]

/-- **One step.** Where an outbound handler is found, the event never comes to its end. -/
theorem passBack_eq_none (hlinked : Linked hs) {e : HandlerEntry H} (fuel : ℕ) {count : ℕ}
    (h : forPrevOutbound hs count = some e) : passBack hs fuel count = none := by
  induction fuel generalizing count with
  | zero => rfl
  | succ fuel ih =>
    have hagain := ih (forPrevOutbound_self hlinked h)
    simp only [passBack, h, hagain, Option.map_none]

/-- The event comes to its end only where there is no outbound handler for it. -/
theorem passBack_eq_some_iff (hlinked : Linked hs) {count : ℕ} {seen : List (HandlerEntry H)} :
    (∃ fuel, passBack hs fuel count = some seen) ↔
      (∀ e ∈ hs.take count, e.outbound.isSome = false) ∧ seen = [] := by
  constructor
  · intro ⟨fuel, h⟩
    cases hfind : forPrevOutbound hs count with
    | some e => simp [passBack_eq_none hlinked fuel hfind] at h
    | none =>
      refine ⟨fun e he => ?_, ?_⟩
      · simpa using List.find?_eq_none.mp hfind e (List.mem_reverse.mpr he)
      · cases fuel with
        | zero => simp [passBack] at h
        | succ fuel => simpa [passBack, hfind] using h.symm
  · intro ⟨hnone, hseen⟩
    have hfind : forPrevOutbound hs count = none := by
      apply List.find?_eq_none.mpr
      intro e he
      simp [hnone e (List.mem_reverse.mp he)]
    exact ⟨1, by simp [passBack, hfind, hseen]⟩

/-- Nobody in front, and nobody here. -/
theorem passBack_outboundBefore_iff (hlinked : Linked hs) (i : ℕ) :
    (∃ fuel, passBack hs fuel (i + 1) = some (outboundBefore hs i)) ↔
      ∀ e ∈ hs.take (i + 1), isOutbound e.handler = false := by
  have hcast (e : HandlerEntry H) (he : e ∈ hs.take (i + 1)) :
      e.outbound.isSome = isOutbound e.handler := (hlinked.mem (List.mem_of_mem_take he)).2
  rw [passBack_eq_some_iff hlinked]
  constructor
  · intro ⟨hnone, _⟩ e he
    rw [← hcast e he]
    exact hnone e he
  · intro hnone
    refine ⟨fun e he => (hcast e he).trans (hnone e he), List.filter_eq_nil_iff.mpr fun e he => ?_⟩
    have hmem : e ∈ hs.take (i + 1) :=
      (List.take_subset_take_left hs (Nat.le_succ i)) (List.mem_reverse.mp he)
    simp [hnone e hmem]

/-- **Flush and close** go from the context of a handler along the outbound handlers in front of
it, the nearest one first and each of them once, exactly where neither this handler nor any in
front of it is outbound. -/
theorem fireFlush_fireClose_iff (edits : List (Edit H)) {i : ℕ} {e : HandlerEntry H}
    (he : (run {} edits).handlers[i]? = some e) :
    let hs := (run {} edits).handlers
    ((∃ fuel, fireFlush hs fuel e.ctx = some (outboundBefore hs i)) ↔
      ∀ e' ∈ hs.take (i + 1), isOutbound e'.handler = false) ∧
    ((∃ fuel, fireClose hs fuel e.ctx = some (outboundBefore hs i)) ↔
      ∀ e' ∈ hs.take (i + 1), isOutbound e'.handler = false) := by
  intro hs
  have hlinked : Linked hs := (run_empty_linked edits).1
  unfold fireFlush fireClose
  rw [(hlinked i e he).index]
  exact ⟨passBack_outboundBefore_iff hlinked i, passBack_outboundBefore_iff hlinked i⟩

end ChannelPipeline

/-! ### Two handlers -/

/-- A handler of one kind. -/
inductive OneWay where
  | inbound | outbound
  deriving DecidableEq

instance : ChannelHandler OneWay where
  isInbound h := h = .inbound
  isOutbound h := h = .outbound

namespace ChannelPipeline

/-- The entry of such a handler. -/
def oneWayEntry (kind : OneWay) (i : ℕ) : HandlerEntry OneWay where
  name := ascii "unnamed"
  handler := kind
  inbound := asInbound kind
  outbound := asOutbound kind
  ctx := { index := i, name := ascii "unnamed", handler := kind }

/-- Two handlers of this kind. -/
def twoHandlers (kind : OneWay) : List (Edit OneWay) :=
  [.addLast (ascii "unnamed") kind, .addLast (ascii "unnamed") kind]

theorem fireFlush_inbound :
    let hs := (run {} (twoHandlers .inbound)).handlers
    hs[1]? = some (oneWayEntry .inbound 1) ∧
      ∃ fuel, fireFlush hs fuel (oneWayEntry .inbound 1).ctx = some (outboundBefore hs 1) :=
  ⟨rfl, (fireFlush_fireClose_iff (twoHandlers .inbound)
    (show _ = some (oneWayEntry .inbound 1) from rfl)).1.mpr (by decide)⟩

/-- Of two outbound handlers the second one never hands the event over to the first. -/
theorem not_fireFlush_outbound :
    let hs := (run {} (twoHandlers .outbound)).handlers
    hs[1]? = some (oneWayEntry .outbound 1) ∧ outboundBefore hs 1 = [oneWayEntry .outbound 0] ∧
      ¬ ∃ fuel, fireFlush hs fuel (oneWayEntry .outbound 1).ctx = some (outboundBefore hs 1) ∨
        fireClose hs fuel (oneWayEntry .outbound 1).ctx = some (outboundBefore hs 1) := by
  intro hs
  have hlinked : Linked hs := (run_empty_linked (twoHandlers .outbound)).1
  have hself : forPrevOutbound hs 2 = some (oneWayEntry .outbound 1) := rfl
  refine ⟨rfl, rfl, fun ⟨fuel, h⟩ => ?_⟩
  have hnone : passBack hs fuel 2 = none := passBack_eq_none hlinked fuel hself
  rcases h with h | h
  · exact absurd (hnone.symm.trans h) (by simp)
  · exact absurd (hnone.symm.trans h) (by simp)

end ChannelPipeline

end XNetty
