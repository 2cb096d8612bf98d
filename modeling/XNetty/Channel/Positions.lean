import XNetty.Channel.OutboundEvents

/-!
# Places and names

A context remembers its place and an entry its name, and both are looked up again later: a handler
that has removed itself goes on from the place that it had, and a handler that has been found by
its type is replaced by its name. Neither needs to lead back to the same entry.

## Main definitions

* `ChannelPipeline.ReachesNext` — a handler that has removed itself passes its message to the next
  inbound handler.
* `ChannelPipeline.replaceType` — replacing a handler of some type.
* `ChannelPipeline.ReplacesFirst` — the first handler of that type is the one replaced.
-/

namespace XNetty

variable {H : Type*} [ChannelHandler H]

open ChannelHandler

namespace ChannelPipeline

/-! ### Removing itself -/

omit [ChannelHandler H] in
/-- `fireReadFrom`: the entry whose handler receives the message. -/
def forNextInbound (hs : List (HandlerEntry H)) (start : ℕ) : Option (HandlerEntry H) :=
  (hs.drop start).find? fun e => e.inbound.isSome

omit [ChannelHandler H] in
/-- The context of an entry that has been removed. -/
def removedContext (e : HandlerEntry H) : ChannelHandlerContext H := { e.ctx with removed := true }

/-- What `channelRead` finds in its argument after the call. It is a reference into the vector,
where the entries behind the removed one have moved up; without any, the removed one's remains. -/
def movedContext (p : ChannelPipeline H) (i : ℕ) (e : HandlerEntry H) : ChannelHandlerContext H :=
  ((p.remove e.name).handlers[i]?.map (·.ctx)).getD (removedContext e)

/-- The handler removes itself and calls `fireRead` on this context: the place, before the removal,
of the handler that receives the message. -/
def passedOnTo (p : ChannelPipeline H) (e : HandlerEntry H) (ctx : ChannelHandlerContext H) :
    Option ℕ :=
  (forNextInbound (p.remove e.name).handlers (ctx.index + 1)).map (·.ctx.index + 1)

/-- That is the next inbound handler. -/
def ReachesNext (p : ChannelPipeline H) (i : ℕ) (e : HandlerEntry H)
    (ctx : ChannelHandlerContext H) : Prop :=
  p.passedOnTo e ctx = (forNextInbound p.handlers (i + 1)).map (·.ctx.index)

variable {p : ChannelPipeline H} {hs : List (HandlerEntry H)}

/-- Behind the removed entry every entry has moved up. -/
theorem drop_renumberFrom_eraseIdx (hlinked : Linked hs) (i : ℕ) :
    (renumberFrom i (hs.eraseIdx i)).drop (i + 1) =
      (hs.drop (i + 2)).map fun e => e.setIndex (e.ctx.index - 1) := by
  apply List.ext_getElem?
  intro k
  have hget : (hs.eraseIdx i)[i + 1 + k]? = hs[i + 2 + k]? := by
    rw [List.getElem?_eraseIdx_of_ge (by omega)]
    congr 1
    omega
  rw [List.getElem?_drop, List.getElem?_map, List.getElem?_drop, renumberFrom, List.getElem?_mapIdx,
    hget]
  cases hk : hs[i + 2 + k]? with
  | none => rfl
  | some e =>
    have hindex := (hlinked _ e hk).index
    have hplace : e.ctx.index - 1 = i + 1 + k := by omega
    have hle : i ≤ i + 1 + k := by omega
    simp only [Option.map_some, hplace, if_pos hle]

omit [ChannelHandler H] in
theorem find?_map_setIndex (es : List (HandlerEntry H)) (f : HandlerEntry H → ℕ) :
    (es.map fun e => e.setIndex (f e)).find? (fun e => e.inbound.isSome) =
      (es.find? fun e => e.inbound.isSome).map fun e => e.setIndex (f e) := by
  rw [List.find?_map]
  rfl

/-- Going on from the place of the removed entry leaves out the entry behind it. -/
theorem passedOnTo_eq (hlinked : Linked p.handlers) {i : ℕ} {e : HandlerEntry H}
    (hplace : placeOf p.handlers e.name = some i) {ctx : ChannelHandlerContext H}
    (hctx : ctx.index = i) :
    p.passedOnTo e ctx = (forNextInbound p.handlers (i + 2)).map (·.ctx.index) := by
  have hhandlers : (p.remove e.name).handlers = renumberFrom i (p.handlers.eraseIdx i) := by
    simp only [remove, hplace]
  unfold passedOnTo forNextInbound
  rw [hhandlers, hctx, drop_renumberFrom_eraseIdx hlinked i, find?_map_setIndex, Option.map_map]
  cases hfind : (p.handlers.drop (i + 2)).find? fun e => e.inbound.isSome with
  | none => rfl
  | some e' =>
    obtain ⟨k, hk⟩ := List.getElem?_of_mem (List.mem_of_find?_eq_some hfind)
    rw [List.getElem?_drop] at hk
    have hindex := (hlinked _ e' hk).index
    have hpos : e'.ctx.index - 1 + 1 = e'.ctx.index := by omega
    exact congrArg some hpos

/-- The argument and a copy of it have the same place. -/
theorem index_movedContext (hlinked : Linked p.handlers) {i : ℕ} {e : HandlerEntry H}
    (he : p.handlers[i]? = some e) :
    (movedContext p i e).index = i := by
  have hafter : Linked (p.remove e.name).handlers := (edit_linked hlinked (.remove e.name)).1
  unfold movedContext
  cases hget : (p.remove e.name).handlers[i]? with
  | none => exact (hlinked i e he).index
  | some e' => exact (hafter i e' hget).index

/-- Leaving out one entry makes no difference if it is not inbound. -/
theorem forNextInbound_skip_iff (hlinked : Linked hs) (i : ℕ) :
    (forNextInbound hs (i + 1)).map (·.ctx.index) =
        (forNextInbound hs i).map (·.ctx.index) ↔
      ∀ e, hs[i]? = some e → isInbound e.handler = false := by
  unfold forNextInbound
  cases hget : hs[i]? with
  | none =>
    have hle : hs.length ≤ i := List.getElem?_eq_none_iff.mp hget
    rw [List.drop_of_length_le hle, List.drop_of_length_le (Nat.le_succ_of_le hle)]
    simp
  | some e =>
    have hdrop : hs.drop i = e :: hs.drop (i + 1) := by
      obtain ⟨hlt, rfl⟩ := List.getElem?_eq_some_iff.mp hget
      exact List.drop_eq_getElem_cons hlt
    have hcast := (hlinked.mem (List.mem_of_getElem? hget)).1
    rw [hdrop, List.find?_cons, hcast]
    cases hin : isInbound e.handler with
    | false => simp [hin]
    | true =>
      simp only [Option.map_some, Option.some.injEq, forall_eq', hin, Bool.true_eq_false, iff_false,
        (hlinked i e hget).index]
      intro h
      obtain ⟨e', he', hindex⟩ := Option.map_eq_some_iff.mp h
      obtain ⟨k, hk⟩ := List.getElem?_of_mem (List.mem_of_find?_eq_some he')
      rw [List.getElem?_drop] at hk
      have hlater := (hlinked _ e' hk).index
      omega

/-- **A handler that removes itself** and then passes its message on reaches the next inbound
handler exactly where the entry behind it is not that handler. It makes no difference whether it
has copied its context before. -/
theorem reachesNext_iff (edits : List (Edit H)) {i : ℕ} {e : HandlerEntry H}
    (he : (run {} edits).handlers[i]? = some e)
    (hplace : placeOf (run {} edits).handlers e.name = some i) :
    let p := run {} edits
    (p.ReachesNext i e (removedContext e) ↔
      ∀ e', p.handlers[i + 1]? = some e' → isInbound e'.handler = false) ∧
    (p.ReachesNext i e (p.movedContext i e) ↔
      ∀ e', p.handlers[i + 1]? = some e' → isInbound e'.handler = false) := by
  intro p
  have hlinked : Linked p.handlers := (run_empty_linked edits).1
  have hindex : (removedContext e).index = i := (hlinked i e he).index
  unfold ReachesNext
  rw [passedOnTo_eq hlinked hplace hindex,
    passedOnTo_eq hlinked hplace (index_movedContext hlinked he)]
  exact ⟨forNextInbound_skip_iff hlinked (i + 1), forNextInbound_skip_iff hlinked (i + 1)⟩

/-- An inbound handler in front of an outbound and another inbound one, under these names. -/
def threeHandlers (second : OneWay) : List (Edit OneWay) :=
  [.addLast [1] .inbound, .addLast [2] second, .addLast [3] .inbound]

/-- The entry of the first one. -/
def firstEntry : HandlerEntry OneWay where
  name := [1]
  handler := .inbound
  inbound := some .inbound
  outbound := none
  ctx := { index := 0, name := [1], handler := .inbound }

theorem reachesNext_threeHandlers :
    (run {} (threeHandlers .outbound)).ReachesNext 0 firstEntry (removedContext firstEntry) :=
  (reachesNext_iff (threeHandlers .outbound) (i := 0) (e := firstEntry) rfl rfl).1.mpr (by decide)

/-- The second of three inbound handlers is passed over: the third one receives the message. -/
theorem not_reachesNext_threeHandlers :
    let p := run {} (threeHandlers .inbound)
    p.handlers[0]? = some firstEntry ∧ placeOf p.handlers firstEntry.name = some 0 ∧
      p.passedOnTo firstEntry (removedContext firstEntry) = some 2 ∧
      ¬ p.ReachesNext 0 firstEntry (removedContext firstEntry) ∧
      ¬ p.ReachesNext 0 firstEntry (p.movedContext 0 firstEntry) :=
  ⟨rfl, rfl, rfl, by unfold ReachesNext; decide, by unfold ReachesNext; decide⟩

/-! ### Replacing by type -/

variable (p : ChannelPipeline H) (isType : H → Bool) (newName : Bytes) (h : H)

/-- `addLast(handler)`. -/
def addLastUnnamed : ChannelPipeline H := p.addLast (ascii "unnamed") h

/-- `replace<T>`: `isType` is the cast to `T`. -/
def replaceType : ChannelPipeline H :=
  match p.handlers.find? fun e => isType e.handler with
  | some e => p.replace e.name newName h
  | none => p

/-- The handler takes the place of the first one of that type, which alone is told that it has been
removed; without any, nothing changes. -/
def ReplacesFirst : Prop :=
  match p.handlers.findIdx? fun e => isType e.handler with
  | some i =>
    (p.replaceType isType newName h).handlers = p.handlers.modify i (fun e => renew e newName h) ∧
    (p.replaceType isType newName h).calls =
      p.calls ++ (p.handlers[i]?.map fun e => .handlerRemoved e.handler).toList ++
        [.onPipelineAttached h, .handlerAdded h]
  | none => p.replaceType isType newName h = p

variable {p isType newName h}

omit [ChannelHandler H] in
/-- The first entry of a name is no later than any entry of that name. -/
theorem placeOf_le {i : ℕ} {e : HandlerEntry H} (he : hs[i]? = some e) :
    ∃ j ≤ i, placeOf hs e.name = some j := by
  obtain ⟨hlt, rfl⟩ := List.getElem?_eq_some_iff.mp he
  cases hplace : placeOf hs hs[i].name with
  | none =>
    have hnone := List.findIdx?_eq_none_iff.mp hplace hs[i] (List.getElem_mem hlt)
    simp at hnone
  | some j =>
    refine ⟨j, ?_, rfl⟩
    by_contra hlater
    obtain ⟨_, _, hfirst⟩ := List.findIdx?_eq_some_iff_getElem.mp hplace
    exact hfirst i (not_le.mp hlater) (by simp)

omit [ChannelHandler H] in
/-- An entry is the first of its name if nothing in front has the name. -/
theorem placeOf_eq_some_iff {i : ℕ} {e : HandlerEntry H} (he : hs[i]? = some e) :
    placeOf hs e.name = some i ↔ ∀ e' ∈ hs.take i, e'.name ≠ e.name := by
  obtain ⟨hlt, rfl⟩ := List.getElem?_eq_some_iff.mp he
  constructor
  · intro hplace e' hmem
    obtain ⟨_, _, hfirst⟩ := List.findIdx?_eq_some_iff_getElem.mp hplace
    obtain ⟨j, hj, rfl⟩ := List.mem_take_iff_getElem.mp hmem
    have hji : j < i := by omega
    simpa using hfirst j hji
  · intro hnames
    refine List.findIdx?_eq_some_iff_getElem.mpr ⟨hlt, by simp, fun j hj => ?_⟩
    have hmem : hs[j] ∈ hs.take i := List.mem_take_iff_getElem.mpr ⟨j, by omega, rfl⟩
    simpa using hnames hs[j] hmem

/-- The first handler of the type is looked up by its name. -/
theorem replaceType_eq {i : ℕ} {e : HandlerEntry H}
    (hfirst : (p.handlers.findIdx? fun e => isType e.handler) = some i)
    (he : p.handlers[i]? = some e) :
    p.replaceType isType newName h = p.replace e.name newName h := by
  obtain ⟨hlt, htype, hbefore⟩ := List.findIdx?_eq_some_iff_getElem.mp hfirst
  obtain ⟨_, rfl⟩ := List.getElem?_eq_some_iff.mp he
  have hfind : (p.handlers.find? fun e => isType e.handler) = some p.handlers[i] := by
    refine List.find?_eq_some_iff_getElem.mpr ⟨htype, i, hlt, rfl, fun j hj => ?_⟩
    simpa using hbefore j hj
  simp only [replaceType, hfind]

/-- An entry in front of the first handler of the type is another one. -/
theorem modify_renew_ne {i j : ℕ} (hij : j < i)
    (hfirst : (hs.findIdx? fun e => isType e.handler) = some i) :
    (hs.modify j fun e => renew e newName h) ≠ hs.modify i fun e => renew e newName h := by
  intro heq
  obtain ⟨hlt, htype, hbefore⟩ := List.findIdx?_eq_some_iff_getElem.mp hfirst
  have hhere := congrArg (·[i]?) heq
  have hfront := congrArg (·[j]?) heq
  have hlt' : j < hs.length := hij.trans hlt
  simp only [List.getElem?_modify, hij.ne, hij.ne', if_true, if_false,
    List.getElem?_eq_getElem hlt, List.getElem?_eq_getElem hlt', Option.map_eq_map,
    Option.map_some, Option.some.injEq] at hhere hfront
  have hnew : h = hs[i].handler := (congrArg HandlerEntry.handler hhere).symm
  have hold : h = hs[j].handler := congrArg HandlerEntry.handler hfront
  apply hbefore j hij
  rw [← hold, hnew]
  exact htype

/-- **Replacing by type** hits the first handler of the type exactly where no entry in front of it
has the same name. -/
theorem replacesFirst_iff (p : ChannelPipeline H) (isType : H → Bool) (newName : Bytes) (h : H) :
    p.ReplacesFirst isType newName h ↔
      ∀ i e, (p.handlers.findIdx? fun e => isType e.handler) = some i →
        p.handlers[i]? = some e → ∀ e' ∈ p.handlers.take i, e'.name ≠ e.name := by
  unfold ReplacesFirst
  cases hfirst : p.handlers.findIdx? fun e => isType e.handler with
  | none =>
    have hfind : (p.handlers.find? fun e => isType e.handler) = none := by
      apply List.find?_eq_none.mpr
      intro e he
      simp [List.findIdx?_eq_none_iff.mp hfirst e he]
    simp [replaceType, hfind]
  | some i =>
    obtain ⟨hlt, -⟩ := List.findIdx?_eq_some_iff_getElem.mp hfirst
    have he : p.handlers[i]? = some p.handlers[i] := List.getElem?_eq_getElem hlt
    have hreplace : p.replaceType isType newName h = p.replace p.handlers[i].name newName h :=
      replaceType_eq hfirst he
    dsimp only
    rw [hreplace]
    constructor
    · intro ⟨hhandlers, _⟩ i' e hi he'
      obtain rfl := Option.some.inj hi
      obtain rfl := Option.some.inj (he.symm.trans he')
      apply (placeOf_eq_some_iff he).mp
      obtain ⟨j, hle, hplace⟩ := placeOf_le he
      rcases hle.lt_or_eq with hlt | rfl
      · simp only [replace, hplace] at hhandlers
        exact absurd hhandlers (modify_renew_ne hlt hfirst)
      · exact hplace
    · intro hnames
      have hplace := (placeOf_eq_some_iff he).mpr (hnames i _ rfl he)
      simp only [replace, hplace, and_self]

/-- Of two unnamed handlers the second one is outbound. Replacing the outbound handler replaces the
inbound one. -/
theorem not_replacesFirst :
    let p := (({} : ChannelPipeline OneWay).addLastUnnamed .inbound).addLastUnnamed .outbound
    (p.replaceType (· = .outbound) [1] .inbound).handlers.map (·.name) =
        [[1], ascii "unnamed"] ∧
      ¬ p.ReplacesFirst (· = .outbound) [1] .inbound := by
  intro p
  have hnames : (p.replaceType (· = .outbound) [1] .inbound).handlers.map (·.name) =
      [[1], ascii "unnamed"] := rfl
  refine ⟨hnames, fun hfirst => ?_⟩
  have hhandlers := congrArg (List.map (·.name)) hfirst.1
  exact absurd (hnames.symm.trans hhandlers) (by decide)

end ChannelPipeline

end XNetty
