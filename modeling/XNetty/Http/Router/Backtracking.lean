import XNetty.Http.Router.Routes

/-!
# What `matchNode` finds

`matchNode` binds a parameter on the way down and erases it on the way back. Where no path of the
trie binds a name twice, what it has bound at the end are the bindings of the path that it
found, which is the first of the paths that match.

## Main definitions

* `Node.Route` — a path of the trie that matches and ends at a handler.
* `Pattern.TriedBefore` — the order in which paths are tried.
* `Node.Searchable` — the names along each path are new.
-/

namespace XNetty

/-! ## Paths in order -/

/-- The name that a segment binds. -/
def Segment.name? : Segment → Option Bytes
  | .literal _ => none
  | .param name => some name

/-- Of siblings `ks`, in the order of their insertion, a literal is tried before a parameter and a
parameter before those that were inserted after it. -/
def Segment.TriedBefore (ks : List Segment) : Segment → Segment → Prop
  | .literal _, .param _ => True
  | .param a, .param b => ks.idxOf (.param a) < ks.idxOf (.param b)
  | _, .literal _ => False

namespace Pattern

/-- The names that a pattern binds. -/
def names (p : Pattern) : List Bytes := p.filterMap Segment.name?

@[simp] theorem names_nil : names [] = [] := rfl

@[simp] theorem names_literal (text : Bytes) (p : Pattern) :
    names (.literal text :: p) = p.names := rfl

@[simp] theorem names_param (name : Bytes) (p : Pattern) :
    names (.param name :: p) = name :: p.names := rfl

/-- Where the two paths part, that of `p` goes on with a segment that is tried before that of `q`;
`next` gives the segments that stand behind a path. -/
def TriedBefore (next : Pattern → List Segment) (p q : Pattern) : Prop :=
  ∃ before a p' b q', p = before ++ a :: p' ∧ q = before ++ b :: q' ∧
    Segment.TriedBefore (next before) a b

theorem TriedBefore.cons {next : Pattern → List Segment} {p q : Pattern} (k : Segment)
    (h : TriedBefore (fun r => next (k :: r)) p q) : TriedBefore next (k :: p) (k :: q) := by
  obtain ⟨before, a, p', b, q', rfl, rfl, hab⟩ := h
  exact ⟨k :: before, a, p', b, q', rfl, rfl, hab⟩

theorem TriedBefore.of_head {next : Pattern → List Segment} {a b : Segment}
    (h : Segment.TriedBefore (next []) a b) (p q : Pattern) :
    TriedBefore next (a :: p) (b :: q) :=
  ⟨[], a, p, b, q, rfl, rfl, h⟩

/-- **The bindings of a path** that binds no name twice: each parameter to its segment. -/
theorem lookup_bindings {p : Pattern} {segs : List Bytes} (hp : p.Matches segs)
    (hnames : p.names.Nodup) (params : StringMap) (name value : Bytes) :
    (p.bindings segs params).lookup name = some value ↔
      (.param name, value) ∈ p.zip segs ∨
        name ∉ p.names ∧ params.lookup name = some value := by
  induction p generalizing segs params with
  | nil => cases segs <;> simp [bindings]
  | cons k p ih =>
    cases segs with
    | nil => exact absurd hp id
    | cons seg segs =>
      cases k with
      | literal text => simp [bindings, ih hp.2 hnames]
      | param key =>
        obtain ⟨hkey, hrest⟩ := List.nodup_cons.mp (names_param key p ▸ hnames)
        have hzip : ∀ value, (Segment.param key, value) ∉ p.zip segs := fun value hmem =>
          hkey (List.mem_filterMap.mpr ⟨_, (List.of_mem_zip hmem).1, rfl⟩)
        rw [bindings, ih hp.2 hrest]
        by_cases hname : name = key
        · subst hname
          simp [hzip, hkey, eq_comm]
        · simp [hname, Finmap.lookup_insert_of_ne _ hname]

end Pattern

namespace Node

variable {H : Type*}

/-- A path of the trie that matches the segments and ends at a handler. -/
def Route (methodMask : UInt8) (segs : List Bytes) (n : Node H) (p : Pattern) : Prop :=
  p.Matches segs ∧ ∃ c, Trie.get? NodeData.label p n = some c ∧
    (c.data.handlers.handlerFor methodMask).isSome

/-- Of the routes, the one that is tried before all others. -/
def FirstRoute (methodMask : UInt8) (segs : List Bytes) (n : Node H) (p : Pattern) : Prop :=
  Route methodMask segs n p ∧ ∀ q, Route methodMask segs n q →
    q = p ∨ p.TriedBefore (Trie.labelsAt NodeData.label · n) q

/-- Parameters are named after their segments, siblings have different labels, and the names along
a path are different from each other and from those that are bound already. -/
structure Searchable (n : Node H) (params : StringMap) : Prop where
  named : Trie.Everywhere NodeData.label Named n
  labels : ∀ p, (Trie.labelsAt NodeData.label p n).Nodup
  names : ∀ p : Pattern, (Trie.get? NodeData.label p n).isSome →
    p.names.Nodup ∧ ∀ name ∈ p.names, name ∉ params

variable {n c : Node H} {params : StringMap}

namespace Searchable

theorem child? (h : n.Searchable params) (hc : c ∈ n.children) :
    Trie.child? NodeData.label c.data.label n = some c :=
  Trie.child?_of_mem (h.labels []) hc

theorem labelsAt_child (h : n.Searchable params) (hc : c ∈ n.children) (p : Pattern) :
    Trie.labelsAt NodeData.label p c = Trie.labelsAt NodeData.label (c.data.label :: p) n := by
  simp [Trie.labelsAt, h.child? hc]

theorem get?_child (h : n.Searchable params) (hc : c ∈ n.children) (p : Pattern) :
    Trie.get? NodeData.label (c.data.label :: p) n = Trie.get? NodeData.label p c := by
  simp [h.child? hc]

theorem label_param (h : n.Searchable params) (hc : c ∈ n.children) (hparam : c.data.isParam) :
    c.data.label = .param c.data.paramName := by
  have hname : c.data.paramName = c.data.segment := h.named.child? (h.child? hc) [] c rfl hparam
  simp [NodeData.label, hparam, hname]

theorem literal (h : n.Searchable params) (hc : c ∈ n.children) (hlit : ¬c.data.isParam) :
    c.Searchable params where
  named := h.named.child? (h.child? hc)
  labels p := h.labelsAt_child hc p ▸ h.labels _
  names p hp := by
    have hlabel : c.data.label = .literal c.data.segment := by simp [NodeData.label, hlit]
    have hnames := h.names (c.data.label :: p) (by rwa [h.get?_child hc])
    rwa [hlabel] at hnames

/-- Binding the name of a parameter, which is new. -/
theorem param (h : n.Searchable params) (hc : c ∈ n.children) (hparam : c.data.isParam)
    (seg : Bytes) :
    c.data.paramName ∉ params ∧ c.Searchable (params.insert c.data.paramName seg) := by
  have hnames : ∀ p : Pattern, (Trie.get? NodeData.label p c).isSome →
      (c.data.paramName :: p.names).Nodup ∧ ∀ name ∈ c.data.paramName :: p.names,
        name ∉ params := by
    intro p hp
    have hnames := h.names (c.data.label :: p) (by rwa [h.get?_child hc])
    rwa [h.label_param hc hparam] at hnames
  refine ⟨(hnames [] rfl).2 _ List.mem_cons_self, h.named.child? (h.child? hc),
    fun p => h.labelsAt_child hc p ▸ h.labels _, fun p hp => ?_⟩
  obtain ⟨hnodup, hnew⟩ := hnames p hp
  obtain ⟨hhead, htail⟩ := List.nodup_cons.mp hnodup
  refine ⟨htail, fun name hname hmem => ?_⟩
  rcases Finmap.mem_insert.mp hmem with rfl | hold
  · exact hhead hname
  · exact hnew name (List.mem_cons_of_mem _ hname) hold

end Searchable

/-! ## The two loops -/

section loops

variable (go : Node H → StringMap → Bool × StringMap) {cs : List (Node H)} (seg : Bytes)

/-- What is bound for a child that fails is erased again. -/
theorem erase_insert {name : Bytes} (hname : name ∉ params) (seg : Bytes) :
    (params.insert name seg).erase name = params := by
  refine Finmap.ext_lookup fun key => ?_
  by_cases hkey : key = name
  · rw [hkey, Finmap.lookup_erase, Finmap.lookup_eq_none.mpr hname]
  · rw [Finmap.lookup_erase_ne hkey, Finmap.lookup_insert_of_ne _ hkey]

theorem searchLiteral_cases
    (hgo : ∀ c ∈ cs, ¬c.data.isParam → c.data.segment = seg → (go c params).1 = false →
      (go c params).2 = params) :
    (searchLiteral go seg cs params = (false, params) ∧
      ∀ c ∈ cs, ¬c.data.isParam → c.data.segment = seg → (go c params).1 = false) ∨
    ∃ c ∈ cs, ¬c.data.isParam ∧ c.data.segment = seg ∧ (go c params).1 = true ∧
      searchLiteral go seg cs params = go c params := by
  induction cs with
  | nil => exact .inl ⟨rfl, by simp⟩
  | cons c cs ih =>
    have ih := ih fun d hd => hgo d (List.mem_cons_of_mem c hd)
    unfold searchLiteral
    by_cases hlit : ¬c.data.isParam ∧ c.data.segment = seg
    · cases hfound : (go c params).1 with
      | true =>
        refine .inr ⟨c, List.mem_cons_self, hlit.1, hlit.2, hfound, ?_⟩
        rw [if_pos hlit]
        exact if_pos hfound
      | false =>
        have hrestore := hgo c List.mem_cons_self hlit.1 hlit.2 hfound
        simp only [if_pos hlit, hfound, Bool.false_eq_true, if_false, hrestore]
        rcases ih with ⟨hnone, hall⟩ | ⟨d, hd, hrest⟩
        · exact .inl ⟨hnone, List.forall_mem_cons.mpr ⟨fun _ _ => hfound, hall⟩⟩
        · exact .inr ⟨d, List.mem_cons_of_mem c hd, hrest⟩
    · rw [if_neg hlit]
      rcases ih with ⟨hnone, hall⟩ | ⟨d, hd, hfound⟩
      · exact .inl ⟨hnone, List.forall_mem_cons.mpr ⟨fun h₁ h₂ => absurd ⟨h₁, h₂⟩ hlit, hall⟩⟩
      · exact .inr ⟨d, List.mem_cons_of_mem c hd, hfound⟩

theorem searchParam_cases
    (hgo : ∀ c ∈ cs, c.data.isParam → c.data.paramName ∉ params ∧
      ((go c (params.insert c.data.paramName seg)).1 = false →
        (go c (params.insert c.data.paramName seg)).2 = params.insert c.data.paramName seg)) :
    (searchParam go seg cs params = (false, params) ∧
      ∀ c ∈ cs, c.data.isParam → (go c (params.insert c.data.paramName seg)).1 = false) ∨
    ∃ before c after, cs = before ++ c :: after ∧ c.data.isParam ∧
      (∀ d ∈ before, d.data.isParam → (go d (params.insert d.data.paramName seg)).1 = false) ∧
      (go c (params.insert c.data.paramName seg)).1 = true ∧
      searchParam go seg cs params = go c (params.insert c.data.paramName seg) := by
  induction cs with
  | nil => exact .inl ⟨rfl, by simp⟩
  | cons c cs ih =>
    have ih := ih fun d hd => hgo d (List.mem_cons_of_mem c hd)
    unfold searchParam
    by_cases hparam : c.data.isParam
    · obtain ⟨hname, hrestore⟩ := hgo c List.mem_cons_self hparam
      rw [if_pos hparam]
      cases hfound : (go c (params.insert c.data.paramName seg)).1 with
      | true => exact .inr ⟨[], c, cs, rfl, hparam, by simp, hfound, by simp [hfound]⟩
      | false =>
        simp only [hfound, Bool.false_eq_true, if_false, hrestore hfound, erase_insert hname]
        rcases ih with ⟨hnone, hall⟩ | ⟨before, d, after, rfl, hd, hbefore, hrest⟩
        · exact .inl ⟨hnone, List.forall_mem_cons.mpr ⟨fun _ => hfound, hall⟩⟩
        · exact .inr ⟨c :: before, d, after, rfl, hd,
            List.forall_mem_cons.mpr ⟨fun _ => hfound, hbefore⟩, hrest⟩
    · rw [if_neg hparam]
      rcases ih with ⟨hnone, hall⟩ | ⟨before, d, after, rfl, hd, hbefore, hrest⟩
      · exact .inl ⟨hnone, List.forall_mem_cons.mpr ⟨fun h => absurd h hparam, hall⟩⟩
      · exact .inr ⟨c :: before, d, after, rfl, hd,
          List.forall_mem_cons.mpr ⟨fun h => absurd h hparam, hbefore⟩, hrest⟩

end loops

/-! ## The search -/

variable {methodMask : UInt8} {seg : Bytes} {segs : List Bytes} {p : Pattern}

/-- A route goes through a child whose segment matches. -/
theorem route_cons_iff (h : n.Searchable params) (q : Pattern) :
    Route methodMask (seg :: segs) n q ↔ ∃ c ∈ n.children, c.data.label.Matches seg ∧
      ∃ q', q = c.data.label :: q' ∧ Route methodMask segs c q' := by
  constructor
  · rintro ⟨hmatch, e, hget, he⟩
    cases q with
    | nil => exact absurd hmatch id
    | cons k q' =>
      obtain ⟨c, hc, hrest⟩ := Option.bind_eq_some_iff.mp hget
      obtain rfl := Trie.label_child? hc
      exact ⟨c, List.mem_of_find?_eq_some hc, hmatch.1, q', rfl, hmatch.2, e, hrest, he⟩
  · rintro ⟨c, hc, hseg, q', rfl, hmatch, e, hget, he⟩
    exact ⟨⟨hseg, hmatch⟩, e, (h.get?_child hc q').trans hget, he⟩

/-- The first route of a child is the first of its parent, when every other child that has one is
tried later. -/
theorem FirstRoute.cons (h : n.Searchable params) (hc : c ∈ n.children)
    (hseg : c.data.label.Matches seg) (hp : FirstRoute methodMask segs c p)
    (hothers : ∀ d ∈ n.children, d.data.label.Matches seg → (∃ q, Route methodMask segs d q) →
      d = c ∨ Segment.TriedBefore (Trie.labels NodeData.label n) c.data.label d.data.label) :
    FirstRoute methodMask (seg :: segs) n (c.data.label :: p) := by
  refine ⟨(route_cons_iff h _).mpr ⟨c, hc, hseg, p, rfl, hp.1⟩, fun q hq => ?_⟩
  obtain ⟨d, hd, hdseg, q', rfl, hq'⟩ := (route_cons_iff h q).mp hq
  rcases hothers d hd hdseg ⟨q', hq'⟩ with rfl | hbefore
  · rcases hp.2 q' hq' with rfl | hbefore
    · exact .inl rfl
    · refine .inr (Pattern.TriedBefore.cons d.data.label ?_)
      simpa only [← h.labelsAt_child hd] using hbefore
  · exact .inr (Pattern.TriedBefore.of_head hbefore p q')

/-- Of two parameter children the one that was inserted first is tried first. -/
theorem triedBefore_of_append (h : n.Searchable params) {before after : List (Node H)}
    (hcs : n.children = before ++ c :: after) (hc : c.data.isParam) {d : Node H} (hd : d ∈ after)
    (hdparam : d.data.isParam) :
    Segment.TriedBefore (Trie.labels NodeData.label n) c.data.label d.data.label := by
  have hnodup : (Trie.labels NodeData.label n).Nodup := h.labels []
  have hlabels : Trie.labels NodeData.label n = before.map (fun c => c.data.label) ++
      c.data.label :: after.map fun c => c.data.label := by
    simp [Trie.labels, hcs]
  have hlater : d.data.label ∈ after.map fun c => c.data.label := List.mem_map_of_mem hd
  rw [hlabels] at hnodup ⊢
  rw [h.label_param (by simp [hcs]) hc] at hnodup ⊢
  rw [h.label_param (by simp [hcs, hd]) hdparam] at hlater ⊢
  change List.idxOf _ _ < List.idxOf _ _
  grind

/-- **`matchNode`** leaves the bindings alone where no route matches, and else adds those of the
first route. -/
theorem matchNode_cases (h : n.Searchable params) (methodMask : UInt8) (segs : List Bytes) :
    (matchNode methodMask segs n params = (false, params) ∧ ∀ p, ¬Route methodMask segs n p) ∨
    ∃ p, FirstRoute methodMask segs n p ∧
      matchNode methodMask segs n params = (true, p.bindings segs params) := by
  induction segs generalizing n params with
  | nil =>
    have hnil : ∀ p, Route methodMask [] n p ↔
        p = [] ∧ (n.data.handlers.handlerFor methodMask).isSome := by
      intro p
      constructor
      · rintro ⟨hmatch, c, hget, hc⟩
        obtain rfl : p = [] := List.eq_nil_of_length_eq_zero hmatch.length_eq
        obtain rfl := Option.some.inj hget
        exact ⟨rfl, hc⟩
      · rintro ⟨rfl, hn⟩
        exact ⟨trivial, n, rfl, hn⟩
    cases hn : (n.data.handlers.handlerFor methodMask).isSome with
    | false => exact .inl ⟨by rw [matchNode, hn], fun p hp => by simp [hnil, hn] at hp⟩
    | true =>
      refine .inr ⟨[], ⟨(hnil []).mpr ⟨rfl, hn⟩, fun q hq => .inl ((hnil q).mp hq).1⟩, ?_⟩
      rw [matchNode, hn]
      rfl
  | cons seg segs ih =>
    have hfail : ∀ {c : Node H} {params}, c.Searchable params →
        (matchNode methodMask segs c params).1 = false →
        (matchNode methodMask segs c params).2 = params ∧ ∀ p, ¬Route methodMask segs c p := by
      intro c params hc hfalse
      rcases ih hc with ⟨heq, hnone⟩ | ⟨p, -, heq⟩
      · exact ⟨by rw [heq], hnone⟩
      · simp [heq] at hfalse
    have hfound : ∀ {c : Node H} {params}, c.Searchable params →
        (matchNode methodMask segs c params).1 = true → ∃ p, FirstRoute methodMask segs c p ∧
          matchNode methodMask segs c params = (true, p.bindings segs params) := by
      intro c params hc htrue
      rcases ih hc with ⟨heq, -⟩ | hp
      · simp [heq] at htrue
      · exact hp
    rw [matchNode]
    rcases searchLiteral_cases (matchNode methodMask segs) seg
        fun c hc hlit _ hfalse => (hfail (h.literal hc hlit) hfalse).1 with
      ⟨hnone, hliterals⟩ | ⟨c, hc, hlit, hseg, htrue, heq⟩
    · rcases searchParam_cases (matchNode methodMask segs) seg
          fun c hc hparam => ⟨(h.param hc hparam seg).1,
            fun hfalse => (hfail (h.param hc hparam seg).2 hfalse).1⟩ with
        ⟨hnone', hparams⟩ | ⟨before, c, after, hcs, hparam, hbefore, htrue, heq⟩
      · refine .inl ⟨by simp [hnone, hnone'], fun q hq => ?_⟩
        obtain ⟨c, hc, hseg, q', rfl, hq'⟩ := (route_cons_iff h q).mp hq
        rcases matches_label.mp hseg with ⟨hlit, hseg⟩ | hparam
        · exact (hfail (h.literal hc hlit) (hliterals c hc hlit hseg)).2 q' hq'
        · exact (hfail (h.param hc hparam seg).2 (hparams c hc hparam)).2 q' hq'
      · have hc : c ∈ n.children := by simp [hcs]
        have hlabel := h.label_param hc hparam
        obtain ⟨p, hp, hmatch⟩ := hfound (h.param hc hparam seg).2 htrue
        refine .inr ⟨c.data.label :: p, hp.cons h hc (hlabel ▸ trivial) ?_, ?_⟩
        · rintro d hd hdseg ⟨q, hq⟩
          rcases matches_label.mp hdseg with ⟨hdlit, hdseg⟩ | hdparam
          · exact absurd hq ((hfail (h.literal hd hdlit) (hliterals d hd hdlit hdseg)).2 q)
          · rw [hcs, List.mem_append, List.mem_cons] at hd
            rcases hd with hd | rfl | hd
            · have hd' : d ∈ n.children := by simp [hcs, hd]
              exact absurd hq ((hfail (h.param hd' hdparam seg).2 (hbefore d hd hdparam)).2 q)
            · exact .inl rfl
            · exact .inr (triedBefore_of_append h hcs hparam hd hdparam)
        · rw [hnone, hlabel]
          exact heq.trans hmatch
    · obtain ⟨p, hp, hmatch⟩ := hfound (h.literal hc hlit) htrue
      have hlabel : c.data.label = .literal seg := by simp [NodeData.label, hlit, hseg]
      refine .inr ⟨c.data.label :: p, hp.cons h hc (hlabel ▸ rfl) ?_, ?_⟩
      · intro d hd hdseg _
        cases hdlabel : d.data.label with
        | literal text =>
          have htext : (Segment.literal text).Matches seg := hdlabel ▸ hdseg
          obtain rfl : text = seg := htext
          have hchild := h.child? hd
          rw [hdlabel, ← hlabel, h.child? hc] at hchild
          exact .inl (Option.some.inj hchild).symm
        | param name =>
          rw [hlabel]
          exact .inr trivial
      · rw [heq, hmatch, hlabel]
        rfl

end Node

/-! ## The trie of a router -/

theorem Segment.triedBefore_foldl_addLabel (ks : List Segment) (a b : Segment) :
    Segment.TriedBefore (ks.foldl Trie.addLabel []) a b ↔ Segment.TriedBefore ks a b := by
  cases b with
  | literal text => cases a <;> exact Iff.rfl
  | param name =>
    cases a with
    | literal text => exact Iff.rfl
    | param name' => exact Trie.idxOf_foldl_addLabel_lt ks _ _

namespace Router

variable {H : Type*} {regs : List (Registration H)}

/-- A path of the trie begins some registered route. -/
theorem exists_of_get?_build {p : Pattern} {k : Segment}
    (h : (Trie.get? NodeData.label (p ++ [k]) (build regs).root).isSome) :
    ∃ reg ∈ regs, p ++ [k] <+: reg.pattern := by
  have hk : k ∈ Trie.labelsAt NodeData.label p (build regs).root := by
    rw [Trie.get?_append, Option.isSome_bind, Option.any_eq_true] at h
    obtain ⟨c, hc, hchild⟩ := h
    simp only [Trie.labelsAt, Option.mem_def.mp hc, Option.map_some, Option.getD_some]
    refine Trie.child?_isSome.mp ?_
    cases hck : Trie.child? NodeData.label k c with
    | none => simp [hck] at hchild
    | some d => rfl
  rw [labelsAt_build, Trie.mem_foldl_addLabel] at hk
  obtain ⟨reg, hreg, hnext⟩ := List.mem_filterMap.mp hk
  exact ⟨reg, List.mem_of_mem_filter hreg, Trie.nextLabel_eq_some hnext⟩

/-- Registration keeps the names along each path different. -/
theorem searchable_build (hnames : ∀ reg ∈ regs, reg.pattern.names.Nodup) :
    (build regs).root.Searchable ∅ where
  named := named_build regs
  labels p := by
    rw [labelsAt_build]
    exact Trie.nodup_foldl_addLabel _
  names p hp := by
    refine ⟨?_, fun name _ => Finmap.notMem_empty⟩
    rcases List.eq_nil_or_concat' p with rfl | ⟨q, k, rfl⟩
    · exact List.nodup_nil
    · obtain ⟨reg, hreg, hbegins⟩ := exists_of_get?_build hp
      exact (hnames reg hreg).sublist (hbegins.sublist.filterMap _)

/-- **`matchNode` is a search with backtracking**: it succeeds exactly when some path of the trie
matches and ends at a handler. What it has bound then are the bindings of the first such path,
literals before parameters and parameters in order of registration; else it has bound nothing. -/
theorem matchNode_first (regs : List (Registration H))
    (hnames : ∀ reg ∈ regs, reg.pattern.names.Nodup) (methodMask : UInt8) (segs : List Bytes) :
    let root := (build regs).root
    let result := root.matchNode methodMask segs ∅
    (result.1 = true ↔ ∃ p, root.Route methodMask segs p) ∧
    (result.1 = true → ∃ p, root.Route methodMask segs p ∧
      (∀ q, root.Route methodMask segs q → q = p ∨ p.TriedBefore (continuations regs) q) ∧
      ∀ name value, result.2.lookup name = some value ↔ (.param name, value) ∈ p.zip segs) ∧
    (result.1 = false → result.2 = ∅) := by
  intro root result
  have hroot := searchable_build hnames
  rcases Node.matchNode_cases hroot methodMask segs with ⟨heq, hnone⟩ | ⟨p, hp, heq⟩
  · have hresult : result = (false, ∅) := heq
    rw [hresult]
    exact ⟨⟨nofun, fun ⟨p, hp⟩ => absurd hp (hnone p)⟩, nofun, fun _ => rfl⟩
  · have hresult : result = (true, p.bindings segs ∅) := heq
    rw [hresult]
    refine ⟨⟨fun _ => ⟨p, hp.1⟩, fun _ => rfl⟩, fun _ => ⟨p, hp.1, fun q hq => ?_, ?_⟩, nofun⟩
    · refine (hp.2 q hq).imp id fun hbefore => ?_
      obtain ⟨before, a, p', b, q', rfl, rfl, hab⟩ := hbefore
      change Segment.TriedBefore (Trie.labelsAt NodeData.label before (build regs).root) a b at hab
      rw [labelsAt_build, Segment.triedBefore_foldl_addLabel] at hab
      exact ⟨before, a, p', b, q', rfl, rfl, hab⟩
    · intro name value
      obtain ⟨hmatch, c, hget, -⟩ := hp.1
      obtain ⟨hnodup, -⟩ := hroot.names p (by rw [hget]; rfl)
      rw [Pattern.lookup_bindings hmatch hnodup]
      simp

/-- Two routes, of which the literal one leads nowhere for `/s/x`. -/
def detour : List (Registration ℕ) :=
  [⟨.get, ascii "/s/:b/end", 1⟩, ⟨.get, ascii "/:a/:c", 2⟩]

theorem matchNode_first_detour :
    ∃ p, (build detour).root.Route (slotBit 0) [ascii "s", ascii "x"] p ∧
      ((build detour).root.matchNode (slotBit 0) [ascii "s", ascii "x"] ∅).2.lookup
        (ascii "b") = none := by
  have hfirst := (matchNode_first detour (by decide +kernel) (slotBit 0)
    [ascii "s", ascii "x"]).2.1 (by decide +kernel)
  obtain ⟨p, hp, -⟩ := hfirst
  exact ⟨p, hp, by decide +kernel⟩

end Router

end XNetty
