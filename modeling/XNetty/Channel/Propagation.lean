import XNetty.Channel.Pipeline

/-!
# How messages go through a pipeline

While the contexts know their places, a message that every handler passes on goes along the list:
what is read visits the inbound handlers in order, what is written the outbound ones in reverse
order. It arrives behind the first handler only if that one is outbound.

## Main definitions

* `ChannelPipeline.HeadOutbound` — the first handler is outbound.
* `ChannelPipeline.fireRead_eq`, `ChannelPipeline.fireWrite_eq` — who sees a message.
* `ChannelPipeline.run_eq` — so it is after any edits.
-/

namespace XNetty

variable {H : Type*} [ChannelHandler H]

open ChannelHandler

namespace ChannelPipeline

variable {hs : List (HandlerEntry H)}

theorem Linked.mem (hlinked : Linked hs) {e : HandlerEntry H} (he : e ∈ hs) :
    e.inbound.isSome = isInbound e.handler ∧ e.outbound.isSome = isOutbound e.handler := by
  obtain ⟨i, hi⟩ := List.getElem?_of_mem he
  obtain ⟨-, -, -, -, hin, hout⟩ := hlinked i e hi
  rw [hin, hout, asInbound, asOutbound]
  constructor <;> split <;> simp [*]

section first

omit [ChannelHandler H]

variable {α β : Type*} {l : List α} {f : α → β} {accepts : α → Bool} {chosen : β → Bool}

theorem filter_of_find?_eq_none (hsame : ∀ a ∈ l, accepts a = chosen (f a))
    (h : l.find? accepts = none) : (l.map f).filter chosen = [] := by
  refine List.filter_eq_nil_iff.mpr fun b hb => ?_
  obtain ⟨a, ha, rfl⟩ := List.mem_map.mp hb
  rw [← hsame a ha]
  exact List.find?_eq_none.mp h a ha

/-- The first that is chosen, and those behind it. -/
theorem filter_of_find?_eq_some (hsame : ∀ a ∈ l, accepts a = chosen (f a)) {e : α}
    (h : l.find? accepts = some e) :
    ∃ before behind, l = before ++ e :: behind ∧
      (l.map f).filter chosen = f e :: (behind.map f).filter chosen := by
  obtain ⟨he, before, behind, rfl, hnone⟩ := List.find?_eq_some_iff_append.mp h
  refine ⟨before, behind, rfl, ?_⟩
  have hskip : (before.map f).filter chosen = [] := by
    refine List.filter_eq_nil_iff.mpr fun b hb => ?_
    obtain ⟨a, ha, rfl⟩ := List.mem_map.mp hb
    rw [← hsame a (List.mem_append_left _ ha)]
    simpa using hnone a ha
  have hhere : chosen (f e) = true := by
    rw [← hsame e (by simp)]
    exact he
  rw [List.map_append, List.filter_append, hskip, List.map_cons, List.filter_cons_of_pos hhere,
    List.nil_append]

end first

/-- **A message that is read** is seen by the inbound handlers from `start` on, in order. -/
theorem fireReadFrom_eq (hlinked : Linked hs) {fuel start : ℕ} (hfuel : hs.length - start < fuel) :
    fireReadFrom hs fuel start = some (((hs.drop start).map (·.handler)).filter isInbound) := by
  induction fuel generalizing start with
  | zero => omega
  | succ fuel ih =>
    have hsame (e : HandlerEntry H) (he : e ∈ hs.drop start) :
        e.inbound.isSome = isInbound e.handler := (hlinked.mem (List.mem_of_mem_drop he)).1
    rw [fireReadFrom]
    cases hfind : (hs.drop start).find? fun e => e.inbound.isSome with
    | none => rw [filter_of_find?_eq_none hsame hfind]
    | some e =>
      obtain ⟨before, behind, hsplit, hfilter⟩ := filter_of_find?_eq_some hsame hfind
      have hrest : hs.drop (start + before.length + 1) = behind := by
        rw [Nat.add_assoc, ← List.drop_drop, hsplit]
        simp
      have hget : hs[start + before.length]? = some e := by
        rw [← List.getElem?_drop, hsplit]
        simp
      have hlt := (List.getElem?_eq_some_iff.mp hget).1
      dsimp only
      rw [(hlinked _ e hget).index, ih (by omega), hrest, hfilter]
      rfl

/-- The first handler, if there is one, is outbound. -/
def HeadOutbound (ks : List H) : Bool := ks.head?.any isOutbound

/-- **A message that is written** is seen by the outbound handlers from `start` back, in reverse
order. It arrives, as the handlers have made it, if the first handler is outbound. -/
theorem fireWriteFrom_eq (hlinked : Linked hs) {M : Type*} (act : H → M → M) {fuel start : ℕ}
    (hfuel : start < fuel) (hstart : start < hs.length) (msg : M) :
    let seen := ((hs.take (start + 1)).reverse.map (·.handler)).filter isOutbound
    fireWriteFrom act hs fuel start msg =
      some (seen,
        if HeadOutbound (hs.map (·.handler)) then some (seen.foldl (fun m h => act h m) msg)
        else none) := by
  induction fuel generalizing start msg with
  | zero => omega
  | succ fuel ih =>
    have hsame (e : HandlerEntry H) (he : e ∈ (hs.take (start + 1)).reverse) :
        e.outbound.isSome = isOutbound e.handler :=
      (hlinked.mem (List.mem_of_mem_take (List.mem_reverse.mp he))).2
    rw [fireWriteFrom]
    cases hfind : (hs.take (start + 1)).reverse.find? fun e => e.outbound.isSome with
    | none =>
      have hhead : HeadOutbound (hs.map (·.handler)) = false := by
        have hne : hs ≠ [] := List.ne_nil_of_length_pos (Nat.zero_lt_of_lt hstart)
        obtain ⟨e, es, rfl⟩ := List.exists_cons_of_ne_nil hne
        have he : e ∈ ((e :: es).take (start + 1)).reverse := by simp
        have hnot := List.find?_eq_none.mp hfind e he
        rw [hsame e he] at hnot
        simpa [HeadOutbound] using hnot
      dsimp only
      rw [filter_of_find?_eq_none hsame hfind, hhead]
      rfl
    | some e =>
      obtain ⟨before, behind, hsplit, hfilter⟩ := filter_of_find?_eq_some hsame hfind
      have htake : hs.take (start + 1) = behind.reverse ++ e :: before.reverse := by
        rw [← List.reverse_reverse (hs.take (start + 1)), hsplit]
        simp
      have hlen := congrArg List.length htake
      simp only [List.length_take, List.length_append, List.length_reverse,
        List.length_cons] at hlen
      have hget : hs[behind.length]? = some e := by
        rw [← List.getElem?_take_of_lt (show behind.length < start + 1 by omega), htake,
          List.getElem?_append_right (by simp)]
        simp
      have hindex := (hlinked _ e hget).index
      dsimp only
      rw [hfilter, hindex]
      by_cases hbehind : behind = []
      · subst hbehind
        have hhead : HeadOutbound (hs.map (·.handler)) = true := by
          have hout := List.find?_some hfind
          rw [hsame e (List.mem_of_find?_eq_some hfind)] at hout
          have hfirst : hs[0]? = some e := hget
          rw [HeadOutbound, List.head?_map, List.head?_eq_getElem?, hfirst]
          exact hout
        simp [hhead]
      · have hpos := List.length_pos_iff.mpr hbehind
        have hfront : hs.take (behind.length - 1 + 1) = behind.reverse := by
          have hle : behind.length = min behind.length (start + 1) := by omega
          rw [Nat.sub_add_cancel hpos, hle, ← List.take_take, htake]
          exact List.take_left' (List.length_reverse)
        rw [if_neg hpos.ne', ih (by omega) (by omega), hfront, List.reverse_reverse]
        rfl

theorem fireRead_eq {p : ChannelPipeline H} (h : Linked p.handlers) :
    p.fireRead = some ((p.handlers.map (·.handler)).filter isInbound) := by
  rw [fireRead, fireReadFrom_eq h (by omega), List.drop_zero]

theorem fireWrite_eq {p : ChannelPipeline H} (h : Linked p.handlers) {M : Type*} (act : H → M → M)
    (msg : M) :
    let seen := (p.handlers.map (·.handler)).reverse.filter isOutbound
    p.fireWrite act msg =
      some (seen,
        if HeadOutbound (p.handlers.map (·.handler)) then
          some (seen.foldl (fun m h => act h m) msg)
        else none) := by
  dsimp only
  unfold fireWrite
  by_cases hempty : p.handlers = []
  · rw [if_pos hempty, hempty]
    rfl
  · have hpos := List.length_pos_iff.mpr hempty
    rw [if_neg hempty, fireWriteFrom_eq h act (by omega) (by omega), Nat.sub_add_cancel hpos,
      List.take_length, List.map_reverse]

/-- **The pipeline** is the plain list whatever edits have been made. Its contexts know their
places, names and handlers; a message that is read visits the inbound handlers in order, and one
that is written the outbound handlers in reverse order, each of them once. -/
theorem run_eq (edits : List (Edit H)) {M : Type*} (act : H → M → M) (msg : M) :
    let p : ChannelPipeline H := run {} edits
    let l := edits.foldl editList ([] : HandlerList H)
    p.handlers.map (fun e => (e.name, e.handler)) = l ∧
    (∀ (i : ℕ) (e : HandlerEntry H), p.handlers[i]? = some e →
      e.ctx.index = i ∧ e.ctx.handler = e.handler ∧ e.ctx.name = e.name) ∧
    p.fireRead = some ((l.map Prod.snd).filter isInbound) ∧
    (p.fireWrite act msg).map Prod.fst = some ((l.map Prod.snd).reverse.filter isOutbound) := by
  intro p l
  obtain ⟨hlinked, hlist⟩ := run_empty_linked edits
  have hhandlers : p.handlers.map (·.handler) = l.map Prod.snd := by
    have hsnd := congrArg (List.map Prod.snd) hlist
    rwa [toList, List.map_map] at hsnd
  refine ⟨hlist, fun i e he => ?_, ?_, ?_⟩
  · have hat := hlinked i e he
    exact ⟨hat.index, hat.handler, hat.name⟩
  · rw [fireRead_eq hlinked, hhandlers]
  · rw [fireWrite_eq hlinked, hhandlers]
    rfl

end ChannelPipeline

end XNetty
