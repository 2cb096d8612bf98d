import XNetty.Http.Router.Node

/-!
# The two searches

`matchNode` finds a match whenever the trie has one. `walk` follows one path, which the
labels of the trie determine; where it comes to a handler after the last segment, `matchNode`
has followed the same path.

## Main definitions

* `greedy` — the path of `walk`, from labels alone.
* `Node.walk_greedy`, `Node.matchNode_iff`, `Node.matchNode_of_walk` — the searches.
-/

namespace XNetty

variable {H : Type*}

/-! ## The path of a walk -/

/-- The label a walk goes on with: the literal one, or the first parameter. -/
def preferred (ks : List Segment) (seg : Bytes) : Option Segment :=
  if .literal seg ∈ ks then some (.literal seg) else ks.find? Segment.isParam

/-- The path of a walk that has come to `p`, and whether it takes every segment. -/
def greedy (next : Pattern → List Segment) : Pattern → List Bytes → Pattern × Bool
  | p, [] => (p, true)
  | p, seg :: segs =>
    match preferred (next p) seg with
    | some k => greedy next (p ++ [k]) segs
    | none => (p, false)

theorem mem_of_preferred {ks : List Segment} {seg : Bytes} {k : Segment}
    (h : preferred ks seg = some k) : k ∈ ks ∧ k.Matches seg := by
  unfold preferred at h
  split at h
  next hmem =>
    obtain rfl := Option.some.inj h
    exact ⟨hmem, rfl⟩
  next =>
    refine ⟨List.mem_of_find?_eq_some h, ?_⟩
    have hp := List.find?_some h
    cases k with
    | literal text => simp [Segment.isParam] at hp
    | param name => trivial

theorem preferred_congr {ks ks' : List Segment} (hmem : ∀ k, k ∈ ks ↔ k ∈ ks')
    (hfind : ks.find? Segment.isParam = ks'.find? Segment.isParam) (seg : Bytes) :
    preferred ks seg = preferred ks' seg := by
  simp only [preferred, hmem, hfind]

theorem greedy_congr {next next' : Pattern → List Segment}
    (h : ∀ p seg, preferred (next p) seg = preferred (next' p) seg) (p : Pattern)
    (segs : List Bytes) : greedy next p segs = greedy next' p segs := by
  induction segs generalizing p with
  | nil => rfl
  | cons seg segs ih => simp only [greedy, h, ih]

/-- A walk that gives up has a segment left. -/
theorem length_greedy {next : Pattern → List Segment} {p : Pattern} {segs : List Bytes}
    (h : (greedy next p segs).2 = false) :
    (greedy next p segs).1.length < p.length + segs.length := by
  induction segs generalizing p with
  | nil => simp [greedy] at h
  | cons seg segs ih =>
    unfold greedy at h ⊢
    cases hk : preferred (next p) seg with
    | none => simp
    | some k =>
      simp only [hk] at h ⊢
      have hrest := ih h
      rw [List.length_append] at hrest
      simpa [Nat.add_assoc, Nat.add_comm 1] using hrest

theorem greedy_matches {next : Pattern → List Segment} {p : Pattern} {segs done : List Bytes}
    (hp : Pattern.Matches p done) (h : (greedy next p segs).2 = true) :
    Pattern.Matches (greedy next p segs).1 (done ++ segs) := by
  induction segs generalizing p done with
  | nil => simpa [greedy] using hp
  | cons seg segs ih =>
    unfold greedy at h ⊢
    cases hk : preferred (next p) seg with
    | none => simp [hk] at h
    | some k =>
      simp only [hk] at h ⊢
      simpa using ih (hp.concat (mem_of_preferred hk).2) h

namespace Node

theorem nextNode_eq (seg : Bytes) (n : Node H) :
    n.nextNode seg =
      (preferred (Trie.labels NodeData.label n) seg).bind
        fun k => Trie.child? NodeData.label k n := by
  have hlit : (n.children.find? fun c => decide (¬ c.data.isParam ∧ c.data.segment = seg)) =
      Trie.child? NodeData.label (.literal seg) n := by
    unfold Trie.child?
    congr 1
    funext c
    unfold NodeData.label
    cases c.data.isParam <;> simp
  unfold nextNode preferred
  rw [hlit]
  split
  next hmem =>
    obtain ⟨c, hc⟩ := Option.isSome_iff_exists.mp (Trie.child?_isSome.mpr hmem)
    simp [hc]
  next hmem =>
    have hnone : Trie.child? NodeData.label (.literal seg) n = none := by
      rw [← Option.not_isSome_iff_eq_none, Trie.child?_isSome]
      exact hmem
    have hparam : (fun c : Node H => c.data.isParam) = Segment.isParam ∘ fun c => c.data.label := by
      funext c
      simp only [Function.comp, NodeData.label]
      cases c.data.isParam <;> rfl
    rw [hnone, Option.none_or, Trie.labels, List.find?_map, hparam]
    cases hf : n.children.find? (Segment.isParam ∘ fun c => c.data.label) with
    | none => simp
    | some c =>
      -- the first parameter child is also the first child with its label
      have hfirst : Trie.child? NodeData.label c.data.label n = some c := by
        obtain ⟨hc, before, after, hcs, hbefore⟩ := List.find?_eq_some_iff_append.mp hf
        rw [Trie.child?, List.find?_eq_some_iff_append]
        refine ⟨by simp, before, after, hcs, fun d hd => ?_⟩
        have hd := hbefore d hd
        simp only [Bool.not_eq_eq_eq_not, Bool.not_true, decide_eq_false_iff_not]
        rintro heq
        rw [Function.comp, heq] at hd
        simp only [Function.comp] at hc
        simp [hc] at hd
      simp [hfirst]

/-- **The path of the walk** is determined by the labels of the trie. -/
theorem walk_greedy {root cur : Node H} {p : Pattern}
    (h : Trie.get? NodeData.label p root = some cur) (segs : List Bytes) :
    Trie.get? NodeData.label (greedy (Trie.labelsAt NodeData.label · root) p segs).1 root =
        some (walk segs cur).1 ∧
      (greedy (Trie.labelsAt NodeData.label · root) p segs).2 = (walk segs cur).2 := by
  induction segs generalizing p cur with
  | nil => exact ⟨h, rfl⟩
  | cons seg segs ih =>
    have hlabels : Trie.labelsAt NodeData.label p root = Trie.labels NodeData.label cur := by
      simp [Trie.labelsAt, h]
    unfold greedy walk
    rw [hlabels, nextNode_eq]
    cases hk : preferred (Trie.labels NodeData.label cur) seg with
    | none => exact ⟨h, rfl⟩
    | some k =>
      obtain ⟨c, hc⟩ := Option.isSome_iff_exists.mp
        (Trie.child?_isSome.mpr (mem_of_preferred hk).1)
      have hget : Trie.get? NodeData.label (p ++ [k]) root = some c := by
        simp [Trie.get?_append, h, hc]
      simpa [hc] using ih hget

/-! ## Completeness of `matchNode` -/

section search

variable {go : Node H → StringMap → Bool × StringMap} {Q : Node H → Prop} {cs : List (Node H)}
  {seg : Bytes} (hgo : ∀ c ∈ cs, ∀ params, (go c params).1 = true ↔ Q c)
include hgo

theorem searchLiteral_iff (params : StringMap) :
    (searchLiteral go seg cs params).1 = true ↔
      ∃ c ∈ cs, (¬ c.data.isParam ∧ c.data.segment = seg) ∧ Q c := by
  induction cs generalizing params with
  | nil => simp [searchLiteral]
  | cons c cs ih =>
    have ih := ih fun d hd => hgo d (List.mem_cons_of_mem _ hd)
    have hc := hgo c (by simp) params
    unfold searchLiteral
    split
    next hlit =>
      by_cases hQ : Q c
      · simp [hc.mpr hQ, hlit, hQ]
      · simp only [hc, hQ, if_false, ih, List.mem_cons, exists_eq_or_imp, and_false, false_or]
    next hlit => simp only [ih, List.mem_cons, exists_eq_or_imp, hlit, false_and, false_or]

theorem searchParam_iff (params : StringMap) :
    (searchParam go seg cs params).1 = true ↔ ∃ c ∈ cs, c.data.isParam ∧ Q c := by
  induction cs generalizing params with
  | nil => simp [searchParam]
  | cons c cs ih =>
    have ih := ih fun d hd => hgo d (List.mem_cons_of_mem _ hd)
    have hc := hgo c (by simp)
    unfold searchParam
    split
    next hp =>
      by_cases hQ : Q c
      · simp [(hc _).mpr hQ, hp, hQ]
      · simp only [hc, hQ, if_false, ih, List.mem_cons, exists_eq_or_imp, and_false, false_or]
    next hp => simp [ih, hp]

end search

theorem matches_label {a : NodeData H} {seg : Bytes} :
    a.label.Matches seg ↔ (¬ a.isParam ∧ a.segment = seg) ∨ a.isParam := by
  unfold NodeData.label
  cases a.isParam <;> simp [Segment.Matches]

/-- **`matchNode` is a complete search**: it succeeds exactly when some path of the trie
matches the segments and ends at a handler of the method. -/
theorem matchNode_iff {n : Node H} (hnd : ∀ p, (Trie.labelsAt NodeData.label p n).Nodup)
    (methodMask : UInt8) (segs : List Bytes) (params : StringMap) :
    (matchNode methodMask segs n params).1 = true ↔
      ∃ p, Pattern.Matches p segs ∧
        ((Trie.valueAt NodeData.label NodeData.handlers .none p n).handlerFor
          methodMask).isSome := by
  induction segs generalizing n params with
  | nil =>
    constructor
    · intro h
      exact ⟨[], trivial, h⟩
    · rintro ⟨p, hp, h⟩
      obtain rfl : p = [] := List.eq_nil_of_length_eq_zero hp.length_eq
      exact h
  | cons seg segs ih =>
    have hbelow : ∀ {k c}, Trie.child? NodeData.label k n = some c →
        ∀ p, Trie.valueAt NodeData.label NodeData.handlers .none (k :: p) n =
          Trie.valueAt NodeData.label NodeData.handlers .none p c := by
      intro k c hc p
      simp [Trie.valueAt, hc]
    have hfound : ∀ c ∈ n.children, Trie.child? NodeData.label c.data.label n = some c :=
      fun c hc => Trie.child?_of_mem (hnd []) hc
    have hgo : ∀ c ∈ n.children, ∀ params, (matchNode methodMask segs c params).1 = true ↔
        ∃ p, Pattern.Matches p segs ∧
          ((Trie.valueAt NodeData.label NodeData.handlers .none p c).handlerFor
            methodMask).isSome := by
      intro c hc params
      refine ih (fun p => ?_) params
      have hlabels : Trie.labelsAt NodeData.label p c =
          Trie.labelsAt NodeData.label (c.data.label :: p) n := by
        simp [Trie.labelsAt, hfound c hc]
      exact hlabels ▸ hnd _
    have hloops : (matchNode methodMask (seg :: segs) n params).1 = true ↔
        ∃ c ∈ n.children, c.data.label.Matches seg ∧
          ∃ p, Pattern.Matches p segs ∧
            ((Trie.valueAt NodeData.label NodeData.handlers .none p c).handlerFor
              methodMask).isSome := by
      have hliteral := @searchLiteral_iff _ _ _ _ seg hgo params
      have hparam := @searchParam_iff _ _ _ _ seg hgo
        (searchLiteral (matchNode methodMask segs) seg n.children params).2
      simp only [matches_label, or_and_right, and_or_left, exists_or, ← hliteral, ← hparam]
      rw [matchNode]
      split
      next h => simp [h]
      next h => simp [h]
    rw [hloops]
    constructor
    · rintro ⟨c, hc, hseg, p, hp, h⟩
      exact ⟨c.data.label :: p, ⟨hseg, hp⟩, by rwa [hbelow (hfound c hc)]⟩
    · rintro ⟨p, hp, h⟩
      cases p with
      | nil => exact absurd hp id
      | cons k p =>
        cases hc : Trie.child? NodeData.label k n with
        | none => simp [Trie.valueAt, hc, Handlers.handlerFor, Handlers.none] at h
        | some c =>
          refine ⟨c, List.mem_of_find?_eq_some hc, ?_, p, hp.2, by rwa [hbelow hc] at h⟩
          rw [Trie.label_child? hc]
          exact hp.1

/-! ## A walk that comes to a handler -/

section first

variable {go : Node H → StringMap → Bool × StringMap} {cs : List (Node H)} {c : Node H}
  {seg : Bytes} {params found : StringMap}

/-- The first literal child is the first one tried. -/
theorem searchLiteral_of_find
    (hf : (cs.find? fun c => decide (¬ c.data.isParam ∧ c.data.segment = seg)) = some c)
    (hgo : go c params = (true, found)) : searchLiteral go seg cs params = (true, found) := by
  induction cs with
  | nil => cases hf
  | cons d cs ih =>
    unfold searchLiteral
    by_cases hd : ¬ d.data.isParam ∧ d.data.segment = seg
    · rw [List.find?_cons_of_pos (by simpa using hd)] at hf
      obtain rfl := Option.some.inj hf
      simp [hd, hgo]
    · rw [List.find?_cons_of_neg (by simpa using hd)] at hf
      rw [if_neg hd, ih hf]

theorem searchLiteral_of_none
    (hf : (cs.find? fun c => decide (¬ c.data.isParam ∧ c.data.segment = seg)) = none) :
    searchLiteral go seg cs params = (false, params) := by
  induction cs with
  | nil => rfl
  | cons d cs ih =>
    have hnone := List.find?_eq_none.mp hf
    have hcs := List.find?_eq_none.mpr fun c hc => hnone c (List.mem_cons_of_mem _ hc)
    unfold searchLiteral
    rw [if_neg (by simpa using hnone d (by simp)), ih hcs]

/-- The first parameter child is the first one tried. -/
theorem searchParam_of_find (hf : (cs.find? fun c => c.data.isParam) = some c)
    (hgo : go c (params.insert c.data.paramName seg) = (true, found)) :
    searchParam go seg cs params = (true, found) := by
  induction cs with
  | nil => cases hf
  | cons d cs ih =>
    unfold searchParam
    by_cases hd : d.data.isParam
    · rw [List.find?_cons_of_pos (by simpa using hd)] at hf
      obtain rfl := Option.some.inj hf
      simp [hd, hgo]
    · rw [List.find?_cons_of_neg (by simpa using hd)] at hf
      rw [if_neg hd, ih hf]

end first

/-- **A walk that comes to a handler** has followed the path that `matchNode` takes. -/
theorem matchNode_of_walk {n : Node H} (hn : Trie.Everywhere NodeData.label Named n)
    {methodMask : UInt8} {segs : List Bytes} (hw : (walk segs n).2 = true)
    (hh : ((walk segs n).1.data.handlers.handlerFor methodMask).isSome) :
    ∃ p, Trie.get? NodeData.label p n = some (walk segs n).1 ∧ Pattern.Matches p segs ∧
      ∀ params, matchNode methodMask segs n params = (true, Pattern.bindings p segs params) := by
  induction segs generalizing n with
  | nil => exact ⟨[], rfl, trivial, fun params => Prod.ext hh rfl⟩
  | cons seg segs ih =>
    unfold walk at hw hh ⊢
    cases hnext : n.nextNode seg with
    | none => simp [hnext] at hw
    | some c =>
      simp only [hnext] at hw hh ⊢
      obtain ⟨k, hk, hc⟩ := Option.bind_eq_some_iff.mp (nextNode_eq seg n ▸ hnext)
      obtain ⟨p, hget, hp, hmatch⟩ := ih (hn.child? hc) hw hh
      refine ⟨k :: p, by simpa [hc] using hget, ⟨(mem_of_preferred hk).2, hp⟩, fun params => ?_⟩
      obtain rfl := Trie.label_child? hc
      unfold nextNode at hnext
      unfold matchNode
      cases hlit : n.children.find? fun c => decide (¬ c.data.isParam ∧ c.data.segment = seg) with
      | some d =>
        rw [hlit, Option.some_or] at hnext
        obtain rfl := Option.some.inj hnext
        have hd := List.find?_some hlit
        have hlabel : d.data.label = .literal seg := by
          simp only [decide_eq_true_eq] at hd
          simp [NodeData.label, hd]
        rw [searchLiteral_of_find hlit (hmatch params), hlabel]
        rfl
      | none =>
        rw [hlit, Option.none_or] at hnext
        have hparam := List.find?_some hnext
        have hname : c.data.paramName = c.data.segment := hn.child? hc [] c rfl hparam
        have hlabel : c.data.label = .param c.data.segment := by simp [NodeData.label, hparam]
        simp only [searchLiteral_of_none hlit, Bool.false_eq_true, if_false]
        rw [searchParam_of_find hnext (hmatch _), hname, hlabel]
        rfl

end Node

end XNetty
