import XNetty.Channel.OutboundEvents

/-!
# What an edit tells the handlers

A handler that is installed is told the pipeline and then its context, and one that leaves is told
so. `addBefore` and `addAfter` leave out the pipeline.

## Main definitions

* `Installed` — a handler with the number of the call that has installed it.
* `ChannelPipeline.Effect` — who comes in, who leaves and who is told.
* `ChannelPipeline.effect_edit` — the effect of each call.
-/

namespace XNetty

variable {H : Type*}

open ChannelHandler

/-- A handler as one call has installed it. The same handler may be installed again. -/
structure Installed (H : Type*) where
  handler : H
  number : ℕ

instance [ChannelHandler H] : ChannelHandler (Installed H) where
  isInbound h := isInbound h.handler
  isOutbound h := isOutbound h.handler

namespace ChannelPipeline

/-- The edit with its handler numbered. -/
def Edit.number (n : ℕ) : Edit H → Edit (Installed H)
  | .addFirst name h => .addFirst name ⟨h, n⟩
  | .addLast name h => .addLast name ⟨h, n⟩
  | .addBefore base name h => .addBefore base name ⟨h, n⟩
  | .addAfter base name h => .addAfter base name ⟨h, n⟩
  | .replace oldName name h => .replace oldName name ⟨h, n⟩
  | .remove name => .remove name
  | .clear => .clear

/-- The numbers of the handlers in the pipeline. -/
def numbers (hs : List (HandlerEntry (Installed H))) : List ℕ := hs.map (·.handler.number)

/-- Which contexts have their connection. -/
def flags (hs : List (HandlerEntry (Installed H))) : List Bool := hs.map (·.ctx.attached)

def attachedIn (calls : List (HandlerCall (Installed H))) : List ℕ :=
  calls.filterMap fun
    | .onPipelineAttached h => some h.number
    | _ => none

def addedIn (calls : List (HandlerCall (Installed H))) : List ℕ :=
  calls.filterMap fun
    | .handlerAdded h => some h.number
    | _ => none

def removedIn (calls : List (HandlerCall (Installed H))) : List ℕ :=
  calls.filterMap fun
    | .handlerRemoved h => some h.number
    | _ => none

/-- What an edit does: the handlers that it tells the pipeline, their context, and that they have
left; those in the pipeline change accordingly. -/
structure Effect (p q : ChannelPipeline (Installed H)) (attached added removed : List ℕ) :
    Prop where
  attachedIn_eq : attachedIn q.calls = attachedIn p.calls ++ attached
  addedIn_eq : addedIn q.calls = addedIn p.calls ++ added
  removedIn_eq : removedIn q.calls = removedIn p.calls ++ removed
  moved : (numbers q.handlers ++ removed).Perm (numbers p.handlers ++ added)

theorem Effect.refl (p : ChannelPipeline (Installed H)) : Effect p p [] [] [] := by
  constructor <;> simp

/-- What does not depend on the place is kept when places change. -/
theorem map_renumberFrom {K α : Type*} (f : HandlerEntry K → α)
    (hf : ∀ e i, f (e.setIndex i) = f e) (start : ℕ) (hs : List (HandlerEntry K)) :
    (renumberFrom start hs).map f = hs.map f := by
  apply List.ext_getElem?
  intro i
  unfold renumberFrom
  rw [List.getElem?_map, List.getElem?_map, List.getElem?_mapIdx, Option.map_map]
  congr 1
  funext e
  simp only [Function.comp_apply]
  split
  · exact hf e i
  · rfl

theorem map_eraseIdx {K α : Type*} (f : HandlerEntry K → α)
    (hf : ∀ e i, f (e.setIndex i) = f e) (hs : List (HandlerEntry K)) (i : ℕ) :
    (renumberFrom i (hs.eraseIdx i)).map f = (hs.map f).eraseIdx i := by
  rw [map_renumberFrom f hf, List.eraseIdx_map]

theorem map_addEntry {K α : Type*} [ChannelHandler K] (f : HandlerEntry K → α)
    (hf : ∀ e i, f (e.setIndex i) = f e) (hs : List (HandlerEntry K)) (i : ℕ) (name : Bytes)
    (h : K) :
    (addEntry hs i name h).map f = (hs.map f).insertIdx i
      (f ⟨name, h, asInbound h, asOutbound h, { index := i, name, handler := h }⟩) := by
  unfold addEntry
  rw [map_renumberFrom f hf, List.map_insertIdx]

theorem map_modify {K α : Type*} (f : HandlerEntry K → α) (g : HandlerEntry K → HandlerEntry K)
    (k : α → α) (hg : ∀ e, f (g e) = k (f e)) (hs : List (HandlerEntry K)) (i : ℕ) :
    (hs.modify i g).map f = (hs.map f).modify i k := by
  apply List.ext_getElem?
  intro j
  rw [List.getElem?_map, List.getElem?_modify, List.getElem?_modify, List.getElem?_map]
  cases hs[j]? with
  | none => rfl
  | some e => by_cases hij : i = j <;> simp [hij, hg]

/-- A found place is one in the pipeline. -/
theorem placeOf_lt {K : Type*} {hs : List (HandlerEntry K)} {name : Bytes} {i : ℕ}
    (h : placeOf hs name = some i) : i < hs.length :=
  (List.findIdx?_eq_some_iff_getElem.mp h).1

/-- The edit installs a handler in the way of `addBefore` and `addAfter`. -/
def HalfInstalls {K : Type*} (hs : List (HandlerEntry K)) : Edit H → Prop
  | .addBefore base _ _ => placeOf hs base ≠ none
  | .addAfter base _ _ => placeOf hs base ≠ none
  | _ => False

/-! ### What each call does -/

variable {p : ChannelPipeline (Installed H)} {hs : List (HandlerEntry (Installed H))}

theorem effect_remove {name : Bytes} {i : ℕ} (hplace : placeOf p.handlers name = some i) :
    ∃ removed, Effect p (p.remove name) [] [] removed := by
  have hi := placeOf_lt hplace
  refine ⟨[p.handlers[i].handler.number], ?_⟩
  simp only [remove, hplace, List.getElem?_eq_getElem hi]
  constructor
  · simp [attachedIn]
  · simp [addedIn]
  · simp [removedIn]
  · have hlen : i < (numbers p.handlers).length := by simpa [numbers] using hi
    have hget : (numbers p.handlers)[i] = p.handlers[i].handler.number := by simp [numbers]
    have herase : numbers (renumberFrom i (p.handlers.eraseIdx i)) =
        (numbers p.handlers).eraseIdx i := map_eraseIdx _ (fun _ _ => rfl) p.handlers i
    rw [List.append_nil, herase, ← hget]
    exact (List.perm_append_singleton _ _).trans (List.getElem_cons_eraseIdx_perm hlen)

theorem effect_clear : Effect p p.clear [] [] (numbers p.handlers) := by
  constructor
  · simp [clear, attachedIn, List.filterMap_map]
  · simp [clear, addedIn, List.filterMap_map]
  · simp [clear, removedIn, numbers, List.filterMap_map]
  · simp [clear, numbers]

section

variable [ChannelHandler H]

theorem numbers_addEntry (i : ℕ) (name : Bytes) (h : Installed H) :
    numbers (addEntry hs i name h) = (numbers hs).insertIdx i h.number :=
  map_addEntry _ (fun _ _ => rfl) hs i name h

theorem flags_addEntry (i : ℕ) (name : Bytes) (h : Installed H) :
    flags (addEntry hs i name h) = (flags hs).insertIdx i false :=
  map_addEntry _ (fun _ _ => rfl) hs i name h

theorem numbers_renew (i : ℕ) (name : Bytes) (h : Installed H) :
    numbers (hs.modify i fun e => renew e name h) = (numbers hs).set i h.number :=
  calc numbers (hs.modify i fun e => renew e name h)
    _ = (numbers hs).modify i fun _ => h.number :=
      map_modify (fun e : HandlerEntry (Installed H) => e.handler.number) (renew · name h)
        (fun _ => h.number) (fun _ => rfl) hs i
    _ = (numbers hs).set i h.number := List.modify_eq_set _ i _

theorem flags_renew (i : ℕ) (name : Bytes) (h : Installed H) :
    flags (hs.modify i fun e => renew e name h) = flags hs :=
  calc flags (hs.modify i fun e => renew e name h)
    _ = (flags hs).modify i id :=
      map_modify (·.ctx.attached) (renew · name h) id (fun _ => rfl) hs i
    _ = flags hs := List.modify_id i _

theorem effect_addEntry {i : ℕ} (hi : i ≤ p.handlers.length) (name : Bytes) (h : Installed H) :
    Effect p ⟨addEntry p.handlers i name h, p.calls ++ [.onPipelineAttached h, .handlerAdded h]⟩
      [h.number] [h.number] [] := by
  constructor
  · simp [attachedIn]
  · simp [addedIn]
  · simp [removedIn]
  · rw [List.append_nil, numbers_addEntry]
    exact (List.perm_insertIdx _ _ (by simpa [numbers] using hi)).trans
      (List.perm_append_singleton _ _).symm

/-- `addBefore` and `addAfter` tell the handler its context only. -/
theorem effect_addEntry_half {i : ℕ} (hi : i ≤ p.handlers.length) (name : Bytes)
    (h : Installed H) :
    Effect p ⟨addEntry p.handlers i name h, p.calls ++ [.handlerAdded h]⟩ [] [h.number] [] := by
  constructor
  · simp [attachedIn]
  · simp [addedIn]
  · simp [removedIn]
  · exact (effect_addEntry hi name h).moved

theorem effect_replace {oldName : Bytes} {i : ℕ} (hplace : placeOf p.handlers oldName = some i)
    (name : Bytes) (h : Installed H) :
    ∃ removed, Effect p (p.replace oldName name h) [h.number] [h.number] removed := by
  have hi := placeOf_lt hplace
  refine ⟨[p.handlers[i].handler.number], ?_⟩
  simp only [replace, hplace, List.getElem?_eq_getElem hi]
  constructor
  · simp [attachedIn]
  · simp [addedIn]
  · simp [removedIn]
  · have hlen : i < (numbers p.handlers).length := by simpa [numbers] using hi
    have hget : (numbers p.handlers)[i] = p.handlers[i].handler.number := by simp [numbers]
    rw [numbers_renew, ← hget]
    have hset := List.set_perm_cons_eraseIdx hlen h.number
    have herase := List.getElem_cons_eraseIdx_perm hlen
    calc (numbers p.handlers).set i h.number ++ [(numbers p.handlers)[i]]
      _ |>.Perm ((numbers p.handlers)[i] :: (numbers p.handlers).set i h.number) :=
        List.perm_append_singleton _ _
      _ |>.Perm ((numbers p.handlers)[i] :: h.number :: (numbers p.handlers).eraseIdx i) :=
        hset.cons _
      _ |>.Perm (h.number :: (numbers p.handlers)[i] :: (numbers p.handlers).eraseIdx i) :=
        List.Perm.swap _ _ _
      _ |>.Perm (h.number :: numbers p.handlers) := herase.cons _
      _ |>.Perm (numbers p.handlers ++ [h.number]) := (List.perm_append_singleton _ _).symm

/-- **Each call**: a handler that comes in is told so, and told the pipeline if it does not come
in by `addBefore` or `addAfter`; those that leave are told so. -/
theorem effect_edit (p : ChannelPipeline (Installed H)) (e : Edit H) (n : ℕ) :
    (HalfInstalls p.handlers e → Effect p (p.edit (e.number n)) [] [n] []) ∧
      (¬ HalfInstalls p.handlers e →
        ∃ added removed, (added = [] ∨ added = [n]) ∧
          Effect p (p.edit (e.number n)) added added removed) := by
  cases e with
  | addFirst name h =>
    refine ⟨False.elim, fun _ => ⟨[n], [], .inr rfl, ?_⟩⟩
    exact effect_addEntry (Nat.zero_le _) name (⟨h, n⟩ : Installed H)
  | addLast name h =>
    refine ⟨False.elim, fun _ => ⟨[n], [], .inr rfl, ?_⟩⟩
    exact effect_addEntry le_rfl name (⟨h, n⟩ : Installed H)
  | addBefore base name h =>
    simp only [HalfInstalls, Edit.number, edit, addBefore]
    cases hplace : placeOf p.handlers base with
    | none => exact ⟨fun h => absurd rfl h, fun _ => ⟨[], [], .inl rfl, .refl p⟩⟩
    | some i =>
      refine ⟨fun _ => ?_, fun h => absurd (by simp) h⟩
      exact effect_addEntry_half (placeOf_lt hplace).le name (⟨h, n⟩ : Installed H)
  | addAfter base name h =>
    simp only [HalfInstalls, Edit.number, edit, addAfter]
    cases hplace : placeOf p.handlers base with
    | none => exact ⟨fun h => absurd rfl h, fun _ => ⟨[], [], .inl rfl, .refl p⟩⟩
    | some i =>
      refine ⟨fun _ => ?_, fun h => absurd (by simp) h⟩
      exact effect_addEntry_half (placeOf_lt hplace) name (⟨h, n⟩ : Installed H)
  | replace oldName name h =>
    refine ⟨False.elim, fun _ => ?_⟩
    cases hplace : placeOf p.handlers oldName with
    | none =>
      refine ⟨[], [], .inl rfl, ?_⟩
      simpa only [Edit.number, edit, replace, hplace] using Effect.refl p
    | some i =>
      obtain ⟨removed, h⟩ := effect_replace hplace name (⟨h, n⟩ : Installed H)
      exact ⟨[n], removed, .inr rfl, h⟩
  | remove name =>
    refine ⟨False.elim, fun _ => ?_⟩
    cases hplace : placeOf p.handlers name with
    | none =>
      refine ⟨[], [], .inl rfl, ?_⟩
      simpa only [Edit.number, edit, remove, hplace] using Effect.refl p
    | some i =>
      obtain ⟨removed, h⟩ := effect_remove hplace
      exact ⟨[], removed, .inl rfl, h⟩
  | clear => exact ⟨False.elim, fun _ => ⟨[], _, .inl rfl, effect_clear⟩⟩

/-- The edit installs a handler at an end of the pipeline. -/
def AddsAtEnd : Edit H → Prop
  | .addFirst _ _ => True
  | .addLast _ _ => True
  | _ => False

omit [ChannelHandler H] in
theorem mem_flags_erase {i : ℕ} {b : Bool} (hb : b ∈ flags (renumberFrom i (hs.eraseIdx i))) :
    b ∈ flags hs := by
  rw [flags, map_eraseIdx _ (fun _ _ => rfl)] at hb
  exact List.mem_of_mem_eraseIdx hb

/-- An edit that adds no handler gives no context away. -/
theorem mem_flags_edit {e : Edit H} {n : ℕ} (hhalf : ¬ HalfInstalls p.handlers e)
    (hend : ¬ AddsAtEnd e) {b : Bool} (hb : b ∈ flags (p.edit (e.number n)).handlers) :
    b ∈ flags p.handlers := by
  cases e with
  | addFirst name h => exact absurd trivial hend
  | addLast name h => exact absurd trivial hend
  | addBefore base name h =>
    have hplace : placeOf p.handlers base = none := not_not.mp hhalf
    simpa only [Edit.number, edit, addBefore, hplace] using hb
  | addAfter base name h =>
    have hplace : placeOf p.handlers base = none := not_not.mp hhalf
    simpa only [Edit.number, edit, addAfter, hplace] using hb
  | replace oldName name h =>
    simp only [Edit.number, edit, replace] at hb
    cases hplace : placeOf p.handlers oldName with
    | none => simpa only [hplace] using hb
    | some i => simpa only [hplace, flags_renew] using hb
  | remove name =>
    simp only [Edit.number, edit, remove] at hb
    cases hplace : placeOf p.handlers name with
    | none => simpa only [hplace] using hb
    | some i =>
      simp only [hplace] at hb
      exact mem_flags_erase hb
  | clear => simp [Edit.number, edit, clear, flags] at hb

/-- A handler that comes in at an end has no connection. -/
theorem false_mem_flags_edit {e : Edit H} (n : ℕ) (hend : AddsAtEnd e) :
    false ∈ flags (p.edit (e.number n)).handlers := by
  have hmem (i : ℕ) (hi : i ≤ p.handlers.length) (name : Bytes) (h : Installed H) :
      false ∈ flags (addEntry p.handlers i name h) := by
    rw [flags_addEntry]
    exact (List.mem_insertIdx (by simpa [flags] using hi)).mpr (.inl rfl)
  cases e with
  | addFirst name h => exact hmem 0 (Nat.zero_le _) name ⟨h, n⟩
  | addLast name h => exact hmem _ le_rfl name ⟨h, n⟩
  | addBefore base name h => cases hend
  | addAfter base name h => cases hend
  | replace oldName name h => cases hend
  | remove name => cases hend
  | clear => cases hend

end

end ChannelPipeline

end XNetty
