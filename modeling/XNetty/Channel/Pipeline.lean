import Mathlib.Data.List.Basic
import XNetty.Buffer.ByteBuf

/-!
# The pipeline

A connection has a list of handlers. Each has a context that knows its place, and passes messages
on from there: what is read goes to the inbound handlers behind it, what is written to the outbound
ones in front of it.

## Main definitions

* `ChannelPipeline` — the handlers with their contexts, and the calls that edit the list.
* `HandlerList` — the same edits of a plain list.
* `ChannelPipeline.Linked` — every context knows its place and its handler.
* `ChannelPipeline.fireReadFrom`, `ChannelPipeline.fireWriteFrom` — who sees a message.
* `ChannelPipeline.run_linked` — edits keep the contexts linked, and are those of the plain list.
-/

namespace XNetty

/-- What `dynamic_pointer_cast` finds out about a handler. -/
class ChannelHandler (H : Type*) where
  isInbound : H → Bool
  isOutbound : H → Bool

structure ChannelHandlerContext (H : Type*) where
  index : ℕ
  name : Bytes
  handler : H
  removed : Bool := false
  /-- `ctx_` has been set. -/
  attached : Bool := false

structure HandlerEntry (H : Type*) where
  name : Bytes
  handler : H
  inbound : Option H
  outbound : Option H
  ctx : ChannelHandlerContext H

/-- The calls that an edit makes to handlers. -/
inductive HandlerCall (H : Type*) where
  | onPipelineAttached (h : H)
  | handlerAdded (h : H)
  | handlerRemoved (h : H)

structure ChannelPipeline (H : Type*) where
  handlers : List (HandlerEntry H) := []
  calls : List (HandlerCall H) := []

variable {H : Type*} [ChannelHandler H]

open ChannelHandler

def asInbound (h : H) : Option H := if isInbound h then some h else none
def asOutbound (h : H) : Option H := if isOutbound h then some h else none

def HandlerEntry.setIndex (e : HandlerEntry H) (i : ℕ) : HandlerEntry H :=
  { e with ctx := { e.ctx with index := i } }

namespace ChannelPipeline

/-- `handlers[i].ctx->setIndex(i)` from `start` on. -/
def renumberFrom (start : ℕ) (hs : List (HandlerEntry H)) : List (HandlerEntry H) :=
  hs.mapIdx fun i e => if start ≤ i then e.setIndex i else e

def addEntry (hs : List (HandlerEntry H)) (index : ℕ) (name : Bytes) (h : H) :
    List (HandlerEntry H) :=
  renumberFrom (index + 1)
    (hs.insertIdx index ⟨name, h, asInbound h, asOutbound h, { index, name, handler := h }⟩)

/-- The place of the first handler of that name. -/
def placeOf (hs : List (HandlerEntry H)) (name : Bytes) : Option ℕ :=
  hs.findIdx? fun e => e.name = name

variable (p : ChannelPipeline H)

def addFirst (name : Bytes) (h : H) : ChannelPipeline H where
  handlers := addEntry p.handlers 0 name h
  calls := p.calls ++ [.onPipelineAttached h, .handlerAdded h]

def addLast (name : Bytes) (h : H) : ChannelPipeline H where
  handlers := addEntry p.handlers p.handlers.length name h
  calls := p.calls ++ [.onPipelineAttached h, .handlerAdded h]

/-- Unlike the calls above, this and the next tell the handler only that it has been added. -/
def addBefore (base name : Bytes) (h : H) : ChannelPipeline H :=
  match placeOf p.handlers base with
  | some i => ⟨addEntry p.handlers i name h, p.calls ++ [.handlerAdded h]⟩
  | none => p

def addAfter (base name : Bytes) (h : H) : ChannelPipeline H :=
  match placeOf p.handlers base with
  | some i => ⟨addEntry p.handlers (i + 1) name h, p.calls ++ [.handlerAdded h]⟩
  | none => p

/-- The entry with another handler; it keeps its context. -/
def renew (e : HandlerEntry H) (name : Bytes) (h : H) : HandlerEntry H :=
  ⟨name, h, asInbound h, asOutbound h, { e.ctx with name, handler := h, removed := false }⟩

def replace (oldName name : Bytes) (h : H) : ChannelPipeline H :=
  match placeOf p.handlers oldName with
  | some i =>
    { handlers := p.handlers.modify i fun e => renew e name h
      calls := p.calls ++ (p.handlers[i]?.map fun e => .handlerRemoved e.handler).toList ++
        [.onPipelineAttached h, .handlerAdded h] }
  | none => p

def remove (name : Bytes) : ChannelPipeline H :=
  match placeOf p.handlers name with
  | some i =>
    { handlers := renumberFrom i (p.handlers.eraseIdx i)
      calls := p.calls ++ (p.handlers[i]?.map fun e => .handlerRemoved e.handler).toList }
  | none => p

def clear : ChannelPipeline H where
  handlers := []
  calls := p.calls ++ p.handlers.map fun e => .handlerRemoved e.handler

def setContext : ChannelPipeline H :=
  { p with handlers := p.handlers.map fun e => { e with ctx := { e.ctx with attached := true } } }

/-! ## Messages -/

/-- `fireReadFrom`, when every inbound handler passes the message on with `ctx->fireRead`: the
handlers that see it. `none` when there are more of them than `fuel`. -/
def fireReadFrom (hs : List (HandlerEntry H)) : ℕ → ℕ → Option (List H)
  | 0, _ => none
  | fuel + 1, start =>
    match (hs.drop start).find? fun e => e.inbound.isSome with
    | none => some []
    | some e => (fireReadFrom hs fuel (e.ctx.index + 1)).map (e.handler :: ·)

/-- `fireWriteFrom`, when every outbound handler passes on what `act` makes of the message with
`ctx->fireWrite`: the handlers that see it, and what arrives behind the first handler. -/
def fireWriteFrom {M : Type*} (act : H → M → M) (hs : List (HandlerEntry H)) :
    ℕ → ℕ → M → Option (List H × Option M)
  | 0, _, _ => none
  | fuel + 1, start, msg =>
    match (hs.take (start + 1)).reverse.find? fun e => e.outbound.isSome with
    | none => some ([], none)
    | some e =>
      if e.ctx.index = 0 then some ([e.handler], some (act e.handler msg))
      else
        (fireWriteFrom act hs fuel (e.ctx.index - 1) (act e.handler msg)).map fun r =>
          (e.handler :: r.1, r.2)

/-- Who sees a message that is read. -/
def fireRead : Option (List H) := fireReadFrom p.handlers (p.handlers.length + 1) 0

/-- Who sees a message that is written, and what arrives. -/
def fireWrite {M : Type*} (act : H → M → M) (msg : M) : Option (List H × Option M) :=
  if p.handlers = [] then some ([], none)
  else fireWriteFrom act p.handlers (p.handlers.length + 1) (p.handlers.length - 1) msg

end ChannelPipeline

/-! ## The plain list -/

/-- Handlers with their names, in order. -/
abbrev HandlerList (H : Type*) := List (Bytes × H)

namespace HandlerList

omit [ChannelHandler H]

def addBefore (base : Bytes) (x : Bytes × H) : HandlerList H → HandlerList H
  | [] => []
  | y :: l => if y.1 = base then x :: y :: l else y :: addBefore base x l

def addAfter (base : Bytes) (x : Bytes × H) : HandlerList H → HandlerList H
  | [] => []
  | y :: l => if y.1 = base then y :: x :: l else y :: addAfter base x l

def replace (base : Bytes) (x : Bytes × H) : HandlerList H → HandlerList H
  | [] => []
  | y :: l => if y.1 = base then x :: l else y :: replace base x l

def remove (base : Bytes) : HandlerList H → HandlerList H
  | [] => []
  | y :: l => if y.1 = base then l else y :: remove base l

/-- The place of the first handler of that name. -/
def placeOf (l : HandlerList H) (name : Bytes) : Option ℕ := l.findIdx? fun y => y.1 = name

theorem placeOf_cons (y : Bytes × H) (l : HandlerList H) (name : Bytes) :
    placeOf (y :: l) name = if y.1 = name then some 0 else (placeOf l name).map (· + 1) := by
  unfold placeOf
  rw [List.findIdx?_cons]
  simp only [decide_eq_true_eq]

/-- Every edit at the first handler of a name is an edit at its place. -/
theorem addBefore_eq (base : Bytes) (x : Bytes × H) (l : HandlerList H) :
    addBefore base x l = (placeOf l base).elim l fun i => l.insertIdx i x := by
  induction l with
  | nil => rfl
  | cons y l ih =>
    rw [addBefore, placeOf_cons, ih]
    split
    · rfl
    · cases placeOf l base <;> rfl

theorem addAfter_eq (base : Bytes) (x : Bytes × H) (l : HandlerList H) :
    addAfter base x l = (placeOf l base).elim l fun i => l.insertIdx (i + 1) x := by
  induction l with
  | nil => rfl
  | cons y l ih =>
    rw [addAfter, placeOf_cons, ih]
    split
    · rfl
    · cases placeOf l base <;> rfl

theorem replace_eq (base : Bytes) (x : Bytes × H) (l : HandlerList H) :
    replace base x l = (placeOf l base).elim l fun i => l.modify i fun _ => x := by
  induction l with
  | nil => rfl
  | cons y l ih =>
    rw [replace, placeOf_cons, ih]
    split
    · rfl
    · cases placeOf l base <;> rfl

theorem remove_eq (base : Bytes) (l : HandlerList H) :
    remove base l = (placeOf l base).elim l fun i => l.eraseIdx i := by
  induction l with
  | nil => rfl
  | cons y l ih =>
    rw [remove, placeOf_cons, ih]
    split
    · rfl
    · cases placeOf l base <;> rfl

end HandlerList

namespace ChannelPipeline

/-- An entry without its context. -/
def key (e : HandlerEntry H) : Bytes × H := (e.name, e.handler)

/-- The handlers as a plain list. -/
def toList (hs : List (HandlerEntry H)) : HandlerList H := hs.map key

/-- The context knows the place and the handler, which has been cast. -/
structure LinkedAt (i : ℕ) (e : HandlerEntry H) : Prop where
  index : e.ctx.index = i
  name : e.ctx.name = e.name
  handler : e.ctx.handler = e.handler
  present : e.ctx.removed = false
  inbound : e.inbound = asInbound e.handler
  outbound : e.outbound = asOutbound e.handler

/-- **Every context knows its place.** -/
def Linked (hs : List (HandlerEntry H)) : Prop := ∀ i e, hs[i]? = some e → LinkedAt i e

/-! ### Each edit -/

variable {hs : List (HandlerEntry H)}

omit [ChannelHandler H] in
theorem placeOf_toList (name : Bytes) : (toList hs).placeOf name = placeOf hs name := by
  unfold toList HandlerList.placeOf placeOf
  rw [List.findIdx?_map]
  rfl

omit [ChannelHandler H] in
theorem toList_renumberFrom (start : ℕ) : toList (renumberFrom start hs) = toList hs := by
  apply List.ext_getElem?
  intro i
  unfold toList renumberFrom
  rw [List.getElem?_map, List.getElem?_map, List.getElem?_mapIdx, Option.map_map]
  congr 1
  funext e
  simp only [Function.comp_apply]
  split <;> rfl

theorem toList_addEntry (index : ℕ) (name : Bytes) (h : H) :
    toList (addEntry hs index name h) = (toList hs).insertIdx index (name, h) := by
  unfold addEntry
  rw [toList_renumberFrom, toList, List.map_insertIdx]
  rfl

theorem LinkedAt.setIndex {i : ℕ} {e : HandlerEntry H} (h : LinkedAt i e) (j : ℕ) :
    LinkedAt j (e.setIndex j) :=
  ⟨rfl, h.name, h.handler, h.present, h.inbound, h.outbound⟩

/-- Renumbering links the entries from `start` on. -/
theorem linked_renumberFrom {start : ℕ}
    (h : ∀ i e, hs[i]? = some e → ∃ j, LinkedAt j e ∧ (i < start → j = i)) :
    Linked (renumberFrom start hs) := by
  intro i e he
  rw [renumberFrom, List.getElem?_mapIdx] at he
  obtain ⟨d, hd, rfl⟩ := Option.map_eq_some_iff.mp he
  obtain ⟨j, hj, heq⟩ := h i d hd
  split
  · exact hj.setIndex i
  next hstart =>
    obtain rfl := heq (not_le.mp hstart)
    exact hj

theorem Linked.addEntry (hlinked : Linked hs) (index : ℕ) (name : Bytes) (h : H) :
    Linked (addEntry hs index name h) := by
  apply linked_renumberFrom
  intro i e he
  rw [List.getElem?_insertIdx] at he
  split at he
  next hlt => exact ⟨i, hlinked i e he, fun _ => rfl⟩
  next hge =>
    split at he
    next heq =>
      split at he
      next =>
        obtain rfl := Option.some.inj he
        exact ⟨index, ⟨rfl, rfl, rfl, rfl, rfl, rfl⟩, fun _ => heq.symm⟩
      next => cases he
    next hne => exact ⟨i - 1, hlinked (i - 1) e he, fun h => by omega⟩

theorem Linked.eraseIdx (hlinked : Linked hs) (i : ℕ) :
    Linked (renumberFrom i (hs.eraseIdx i)) := by
  apply linked_renumberFrom
  intro j e he
  rw [List.getElem?_eraseIdx] at he
  split at he
  · exact ⟨j, hlinked j e he, fun _ => rfl⟩
  next hge => exact ⟨j + 1, hlinked (j + 1) e he, fun h => absurd h hge⟩

theorem Linked.modify (hlinked : Linked hs) (i : ℕ) (name : Bytes) (h : H) :
    Linked (hs.modify i fun e => renew e name h) := by
  intro j e he
  rw [List.getElem?_modify] at he
  obtain ⟨d, hd, rfl⟩ := Option.map_eq_some_iff.mp he
  have hj := hlinked j d hd
  split
  · exact ⟨hj.index, rfl, rfl, rfl, rfl, rfl⟩
  · exact hj

theorem toList_modify (i : ℕ) (name : Bytes) (h : H) :
    toList (hs.modify i fun e => renew e name h) = (toList hs).modify i fun _ => (name, h) := by
  apply List.ext_getElem?
  intro j
  unfold toList
  simp only [List.getElem?_map, List.getElem?_modify, Option.map_eq_map, Option.map_map]
  congr 1
  funext e
  simp only [Function.comp_apply]
  split <;> rfl

/-! ### Runs -/

omit [ChannelHandler H] in
variable (H) in
/-- The calls that edit a pipeline. -/
inductive Edit where
  | addFirst (name : Bytes) (h : H)
  | addLast (name : Bytes) (h : H)
  | addBefore (base name : Bytes) (h : H)
  | addAfter (base name : Bytes) (h : H)
  | replace (oldName name : Bytes) (h : H)
  | remove (name : Bytes)
  | clear

def edit (p : ChannelPipeline H) : Edit H → ChannelPipeline H
  | .addFirst name h => p.addFirst name h
  | .addLast name h => p.addLast name h
  | .addBefore base name h => p.addBefore base name h
  | .addAfter base name h => p.addAfter base name h
  | .replace oldName name h => p.replace oldName name h
  | .remove name => p.remove name
  | .clear => p.clear

omit [ChannelHandler H] in
/-- The edit of a plain list. -/
def editList (l : HandlerList H) : Edit H → HandlerList H
  | .addFirst name h => (name, h) :: l
  | .addLast name h => l ++ [(name, h)]
  | .addBefore base name h => l.addBefore base (name, h)
  | .addAfter base name h => l.addAfter base (name, h)
  | .replace oldName name h => l.replace oldName (name, h)
  | .remove name => l.remove name
  | .clear => []

/-- **Each edit** keeps the contexts linked, and is that of the plain list. -/
theorem edit_linked {p : ChannelPipeline H} (h : Linked p.handlers) (e : Edit H) :
    Linked (p.edit e).handlers ∧
      toList (p.edit e).handlers = editList (toList p.handlers) e := by
  cases e with
  | addFirst name k =>
    refine ⟨h.addEntry 0 name k, ?_⟩
    exact toList_addEntry 0 name k
  | addLast name k =>
    refine ⟨h.addEntry _ name k, ?_⟩
    have hlen : p.handlers.length = (toList p.handlers).length := (List.length_map _).symm
    refine (toList_addEntry _ name k).trans ?_
    rw [hlen, List.insertIdx_length_self]
    rfl
  | addBefore base name k =>
    rw [edit, editList, addBefore, HandlerList.addBefore_eq, placeOf_toList]
    cases placeOf p.handlers base with
    | none => exact ⟨h, rfl⟩
    | some i => exact ⟨h.addEntry i name k, toList_addEntry i name k⟩
  | addAfter base name k =>
    rw [edit, editList, addAfter, HandlerList.addAfter_eq, placeOf_toList]
    cases placeOf p.handlers base with
    | none => exact ⟨h, rfl⟩
    | some i => exact ⟨h.addEntry (i + 1) name k, toList_addEntry (i + 1) name k⟩
  | replace oldName name k =>
    rw [edit, editList, replace, HandlerList.replace_eq, placeOf_toList]
    cases placeOf p.handlers oldName with
    | none => exact ⟨h, rfl⟩
    | some i => exact ⟨h.modify i name k, toList_modify i name k⟩
  | remove name =>
    rw [edit, editList, remove, HandlerList.remove_eq, placeOf_toList]
    cases placeOf p.handlers name with
    | none => exact ⟨h, rfl⟩
    | some i =>
      refine ⟨h.eraseIdx i, ?_⟩
      exact (toList_renumberFrom i).trans (List.eraseIdx_map key p.handlers i).symm
  | clear => exact ⟨fun _ _ he => absurd he (by simp [edit, clear]), rfl⟩

def run (p : ChannelPipeline H) (edits : List (Edit H)) : ChannelPipeline H := edits.foldl edit p

theorem run_linked {p : ChannelPipeline H} (h : Linked p.handlers) (edits : List (Edit H)) :
    Linked (p.run edits).handlers ∧
      toList (p.run edits).handlers = edits.foldl editList (toList p.handlers) := by
  induction edits generalizing p with
  | nil => exact ⟨h, rfl⟩
  | cons e edits ih =>
    obtain ⟨hlinked, hlist⟩ := edit_linked h e
    have hrun := ih hlinked
    rw [hlist] at hrun
    exact hrun

/-- A pipeline built by any calls is linked, and holds what they put into a list. -/
theorem run_empty_linked (edits : List (Edit H)) :
    Linked (run {} edits).handlers ∧
      toList (run {} edits).handlers = edits.foldl editList ([] : HandlerList H) :=
  run_linked (fun _ _ he => absurd he (by simp)) edits

end ChannelPipeline

end XNetty
