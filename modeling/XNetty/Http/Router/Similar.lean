import XNetty.Http.Router.Search

/-!
# Tries that differ in the order of their children

`matchNode` goes through the children of a node in the order of their insertion. Where no two of
them are parameters, what it finds does not depend on this order.

## Main definitions

* `Node.Similar` — tries that hold the same, with their children in any order.
* `Node.Similar.matchNode_eq` — the search finds the same in both.
-/

namespace XNetty

variable {H : Type*}

namespace Node

/-! ## Tries that differ in the order of their children -/

/-- Two tries hold the same handlers under the same paths, and no node of them has two
parameter children. -/
structure Similar (n n' : Node H) : Prop where
  named : Trie.Everywhere NodeData.label Named n
  named' : Trie.Everywhere NodeData.label Named n'
  nodup : ∀ p, (Trie.labelsAt NodeData.label p n).Nodup
  nodup' : ∀ p, (Trie.labelsAt NodeData.label p n').Nodup
  labels : ∀ p k, k ∈ Trie.labelsAt NodeData.label p n ↔ k ∈ Trie.labelsAt NodeData.label p n'
  values : ∀ p, Trie.valueAt NodeData.label NodeData.handlers .none p n =
    Trie.valueAt NodeData.label NodeData.handlers .none p n'
  lone : ∀ p a b, .param a ∈ Trie.labelsAt NodeData.label p n →
    .param b ∈ Trie.labelsAt NodeData.label p n → a = b

theorem labelsAt_nil (n : Node H) :
    Trie.labelsAt NodeData.label [] n = Trie.labels NodeData.label n := rfl

theorem labelsAt_child {n c : Node H} {k : Segment} (hc : Trie.child? NodeData.label k n = some c)
    (p : Pattern) : Trie.labelsAt NodeData.label p c = Trie.labelsAt NodeData.label (k :: p) n := by
  simp [Trie.labelsAt, hc]

theorem valueAt_child {n c : Node H} {k : Segment} (hc : Trie.child? NodeData.label k n = some c)
    (p : Pattern) : Trie.valueAt NodeData.label NodeData.handlers .none p c =
      Trie.valueAt NodeData.label NodeData.handlers .none (k :: p) n := by
  simp [Trie.valueAt, hc]

theorem Similar.child {n n' c c' : Node H} {k : Segment} (h : Similar n n')
    (hc : Trie.child? NodeData.label k n = some c)
    (hc' : Trie.child? NodeData.label k n' = some c') : Similar c c' where
  named := h.named.child? hc
  named' := h.named'.child? hc'
  nodup p := labelsAt_child hc p ▸ h.nodup _
  nodup' p := labelsAt_child hc' p ▸ h.nodup' _
  labels p j := by rw [labelsAt_child hc, labelsAt_child hc', h.labels]
  values p := by rw [valueAt_child hc, valueAt_child hc', h.values]
  lone p a b ha hb := h.lone (k :: p) a b (labelsAt_child hc p ▸ ha) (labelsAt_child hc p ▸ hb)

/-- The children of both tries under one label: one each, or none. -/
theorem Similar.child?_cases {n n' : Node H} (h : Similar n n') (k : Segment) :
    (Trie.child? NodeData.label k n = none ∧ Trie.child? NodeData.label k n' = none) ∨
    ∃ c c', Trie.child? NodeData.label k n = some c ∧
      Trie.child? NodeData.label k n' = some c' ∧ Similar c c' := by
  have hboth : (Trie.child? NodeData.label k n).isSome ↔
      (Trie.child? NodeData.label k n').isSome := by
    rw [Trie.child?_isSome, Trie.child?_isSome]
    exact h.labels [] k
  cases hc : Trie.child? NodeData.label k n with
  | none =>
    refine .inl ⟨rfl, Option.not_isSome_iff_eq_none.mp fun hsome => ?_⟩
    simp [hc, hsome] at hboth
  | some c =>
    obtain ⟨c', hc'⟩ := Option.isSome_iff_exists.mp (hboth.mp (by simp [hc]))
    exact .inr ⟨c, c', rfl, hc', h.child hc hc'⟩

/-! ## The search where children are told apart by their labels -/

theorem label_eq_literal {a : NodeData H} {seg : Bytes} :
    a.label = .literal seg ↔ ¬ a.isParam ∧ a.segment = seg := by
  unfold NodeData.label
  cases a.isParam <;> simp

theorem label_eq_param {a : NodeData H} {name : Bytes} :
    a.label = .param name ↔ a.isParam ∧ a.segment = name := by
  unfold NodeData.label
  cases a.isParam <;> simp

section loops

variable {go : Node H → StringMap → Bool × StringMap} {seg : Bytes} {cs : List (Node H)}

/-- One literal child is tried, and nothing behind it. -/
theorem searchLiteral_eq_find (hnd : (cs.map fun c => c.data.label).Nodup) (params : StringMap) :
    searchLiteral go seg cs params =
      match cs.find? fun c => decide (c.data.label = .literal seg) with
      | some c => go c params
      | none => (false, params) := by
  induction cs with
  | nil => rfl
  | cons c cs ih =>
    obtain ⟨hfresh, hrest⟩ := List.nodup_cons.mp hnd
    unfold searchLiteral
    by_cases hc : c.data.label = .literal seg
    · have hnone : (cs.find? fun d => decide (¬ d.data.isParam ∧ d.data.segment = seg)) = none := by
        refine List.find?_eq_none.mpr fun d hd hlit => hfresh (List.mem_map.mpr ⟨d, hd, ?_⟩)
        exact (label_eq_literal.mpr (of_decide_eq_true hlit)).trans hc.symm
      rw [if_pos (label_eq_literal.mp hc), List.find?_cons_of_pos (by simpa using hc)]
      simp only [searchLiteral_of_none hnone]
      split
      next => rfl
      next hfalse => exact Prod.ext (Bool.eq_false_iff.mpr hfalse).symm rfl
    · rw [if_neg (hc ∘ label_eq_literal.mpr), List.find?_cons_of_neg (by simpa using hc), ih hrest]

/-- What `matchNode` does with its one parameter child. -/
def tryParam (go : Node H → StringMap → Bool × StringMap) (seg name : Bytes) (c : Node H)
    (params : StringMap) : Bool × StringMap :=
  let r := go c (params.insert name seg)
  if r.1 then r else (false, r.2.erase name)

theorem searchParam_of_literals (h : ∀ c ∈ cs, ¬ c.data.isParam) (params : StringMap) :
    searchParam go seg cs params = (false, params) := by
  induction cs with
  | nil => rfl
  | cons c cs ih =>
    rw [searchParam, if_neg (h c List.mem_cons_self),
      ih fun d hd => h d (List.mem_cons_of_mem c hd)]

/-- Where every parameter has the same name, one parameter child is tried. -/
theorem searchParam_eq_find {name : Bytes} (hnd : (cs.map fun c => c.data.label).Nodup)
    (hnamed : ∀ c ∈ cs, Named c.data)
    (hlone : ∀ c ∈ cs, c.data.isParam → c.data.label = .param name) (params : StringMap) :
    searchParam go seg cs params =
      match cs.find? fun c => decide (c.data.label = .param name) with
      | some c => tryParam go seg name c params
      | none => (false, params) := by
  induction cs with
  | nil => rfl
  | cons c cs ih =>
    obtain ⟨hfresh, hrest⟩ := List.nodup_cons.mp hnd
    obtain ⟨hc, hnamed⟩ := List.forall_mem_cons.mp hnamed
    obtain ⟨hcparam, hlone⟩ := List.forall_mem_cons.mp hlone
    unfold searchParam
    by_cases hparam : c.data.isParam
    · have hlabel := hcparam hparam
      have hname : c.data.paramName = name := (hc hparam).trans (label_eq_param.mp hlabel).2
      have hothers : ∀ d ∈ cs, ¬ d.data.isParam := fun d hd hdparam =>
        hfresh (List.mem_map.mpr ⟨d, hd, (hlone d hd hdparam).trans hlabel.symm⟩)
      rw [if_pos hparam, List.find?_cons_of_pos (by simpa using hlabel)]
      simp only [searchParam_of_literals hothers, hname, tryParam]
    · have hother : ¬ c.data.label = .param name := fun h => hparam (label_eq_param.mp h).1
      rw [if_neg hparam, List.find?_cons_of_neg (by simpa using hother), ih hrest hnamed hlone]

end loops

/-- A turn of `matchNode` where the parameter children all have the name `name`. -/
theorem matchNode_cons_eq {n : Node H} {name : Bytes}
    (hnd : (Trie.labels NodeData.label n).Nodup)
    (hnamed : Trie.Everywhere NodeData.label Named n)
    (hlone : ∀ a, .param a ∈ Trie.labels NodeData.label n → a = name) (methodMask : UInt8)
    (seg : Bytes) (segs : List Bytes) (params : StringMap) :
    matchNode methodMask (seg :: segs) n params =
      let r := match Trie.child? NodeData.label (.literal seg) n with
        | some c => matchNode methodMask segs c params
        | none => (false, params)
      if r.1 then r else
        match Trie.child? NodeData.label (.param name) n with
        | some c => tryParam (matchNode methodMask segs) seg name c r.2
        | none => (false, r.2) := by
  have hchildren : ∀ c ∈ n.children, Named c.data := fun c hc =>
    hnamed.child? (Trie.child?_of_mem hnd hc) [] c rfl
  have hparam : ∀ c ∈ n.children, c.data.isParam → c.data.label = .param name := fun c hc hp => by
    have hlabel : c.data.label = .param c.data.segment := label_eq_param.mpr ⟨hp, rfl⟩
    have hmem : Segment.param c.data.segment ∈ Trie.labels NodeData.label n :=
      List.mem_map.mpr ⟨c, hc, hlabel⟩
    rw [hlabel, hlone _ hmem]
  rw [matchNode, searchLiteral_eq_find hnd, searchParam_eq_find hnd hchildren hparam]
  rfl

/-- **The order of the children** does not show in what `matchNode` finds. -/
theorem Similar.matchNode_eq {n n' : Node H} (h : Similar n n') (methodMask : UInt8)
    (segs : List Bytes) (params : StringMap) :
    matchNode methodMask segs n params = matchNode methodMask segs n' params := by
  induction segs generalizing n n' params with
  | nil =>
    have hroot : n.data.handlers = n'.data.handlers := h.values []
    rw [matchNode, matchNode, hroot]
  | cons seg segs ih =>
    obtain ⟨name, hlone⟩ : ∃ name, ∀ a, .param a ∈ Trie.labels NodeData.label n → a = name := by
      by_cases hparam : ∃ name, .param name ∈ Trie.labels NodeData.label n
      · obtain ⟨name, hname⟩ := hparam
        exact ⟨name, fun a ha => h.lone [] a name ha hname⟩
      · exact ⟨[], fun a ha => absurd ⟨a, ha⟩ hparam⟩
    have hlone' : ∀ a, .param a ∈ Trie.labels NodeData.label n' → a = name :=
      fun a ha => hlone a ((h.labels [] _).mpr ha)
    have hliteral : (match Trie.child? NodeData.label (.literal seg) n with
        | some c => matchNode methodMask segs c params
        | none => (false, params)) =
        match Trie.child? NodeData.label (.literal seg) n' with
        | some c => matchNode methodMask segs c params
        | none => (false, params) := by
      rcases h.child?_cases (.literal seg) with ⟨hc, hc'⟩ | ⟨c, c', hc, hc', hsim⟩
      · rw [hc, hc']
      · rw [hc, hc']
        exact ih hsim params
    rw [matchNode_cons_eq (h.nodup []) h.named hlone,
      matchNode_cons_eq (h.nodup' []) h.named' hlone', hliteral]
    rcases h.child?_cases (.param name) with ⟨hc, hc'⟩ | ⟨c, c', hc, hc', hsim⟩
    · rw [hc, hc']
    · simp only [hc, hc', tryParam, ih hsim]

end Node

end XNetty
