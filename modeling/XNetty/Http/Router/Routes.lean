import XNetty.Http.Router.Router

/-!
# Registered routes

What a router built by a sequence of registrations holds, in terms of that sequence alone.

## Main definitions

* `Registration`, `Router.build` — a sequence of registrations and the router it builds.
* `latest` — the handler of the last registration of a kind.
* `Router.lookup_build`, `Router.walk_build`, `Router.matchNode_build` — dispatch by routes.
-/

namespace XNetty

variable {H : Type*}

inductive Verb where
  | get | post | put | patch | del
  deriving DecidableEq

def Verb.method : Verb → HttpMethod
  | .get => .get
  | .post => .post
  | .put => .put
  | .patch => .patch
  | .del => .delete

/-- One call of `get`, `post`, `put`, `patch` or `del`. -/
structure Registration (H : Type*) where
  verb : Verb
  path : Bytes
  handler : H

namespace Registration

variable (reg : Registration H)

def method : HttpMethod := reg.verb.method

def norm : Bytes := normalizePath reg.path

def segs : List Bytes := splitPath reg.norm

def pattern : Pattern := reg.segs.map Segment.ofBytes

/-- The route goes to the hash map. -/
def isStatic : Prop := ¬ Router.hasParam reg.segs ∧ reg.segs ≠ []

instance : Decidable reg.isStatic := inferInstanceAs (Decidable (_ ∧ _))

end Registration

/-! ## The last registration of a kind -/

/-- The handler of the last registration that `P` holds of. -/
def latest (P : Registration H → Prop) [DecidablePred P] (regs : List (Registration H)) :
    Option H :=
  (regs.filter fun reg => decide (P reg)).getLast?.map Registration.handler

section latest

variable {P : Registration H → Prop} [DecidablePred P]

theorem latest_concat (regs : List (Registration H)) (reg : Registration H) :
    latest P (regs ++ [reg]) = if P reg then some reg.handler else latest P regs := by
  unfold latest
  rw [List.filter_append]
  by_cases h : P reg <;> simp [h]

theorem latest_eq_some {regs : List (Registration H)} {h : H} (hl : latest P regs = some h) :
    ∃ before reg after, regs = before ++ reg :: after ∧ P reg ∧ reg.handler = h ∧
      ∀ r ∈ after, ¬ P r := by
  induction regs using List.reverseRecOn with
  | nil => simp [latest] at hl
  | append_singleton regs reg ih =>
    rw [latest_concat] at hl
    split at hl
    next hP => exact ⟨regs, reg, [], rfl, hP, Option.some.inj hl, by simp⟩
    next hP =>
      obtain ⟨before, reg', after, rfl, hP', hh, hafter⟩ := ih hl
      refine ⟨before, reg', after ++ [reg], by simp, hP', hh, fun r hr => ?_⟩
      obtain hr | hr := List.mem_append.mp hr
      · exact hafter r hr
      · rwa [List.mem_singleton.mp hr]

theorem latest_isSome {regs : List (Registration H)} :
    (latest P regs).isSome ↔ ∃ reg ∈ regs, P reg := by
  induction regs using List.reverseRecOn with
  | nil => simp [latest]
  | append_singleton regs reg ih =>
    rw [latest_concat]
    by_cases h : P reg <;> simp [h, ih, or_and_right, exists_or]

end latest

/-! ## The router built by registrations -/

/-- The registration goes to this slot of the hash map. -/
def StaticAt (norm : Bytes) (i : Fin 5) (reg : Registration H) : Prop :=
  reg.isStatic ∧ reg.norm = norm ∧ methodIndex reg.method = i

/-- The registration goes to this slot of the trie. -/
def TrieAt (p : Pattern) (i : Fin 5) (reg : Registration H) : Prop :=
  ¬ reg.isStatic ∧ reg.pattern = p ∧ methodIndex reg.method = i

instance (norm : Bytes) (i : Fin 5) : DecidablePred (StaticAt (H := H) norm i) :=
  fun _ => inferInstanceAs (Decidable (_ ∧ _ ∧ _))

instance (p : Pattern) (i : Fin 5) : DecidablePred (TrieAt (H := H) p i) :=
  fun _ => inferInstanceAs (Decidable (_ ∧ _ ∧ _))

/-- The segments that the trie's routes go on with behind `p`, in order of registration. -/
def continuations (regs : List (Registration H)) (p : Pattern) : List Segment :=
  (regs.filter fun reg => decide (¬ reg.isStatic)).filterMap fun reg =>
    Trie.nextLabel p reg.pattern

namespace Router

def get (r : Router H) (path : Bytes) (h : H) : Router H := r.addRoute .get path h
def post (r : Router H) (path : Bytes) (h : H) : Router H := r.addRoute .post path h
def put (r : Router H) (path : Bytes) (h : H) : Router H := r.addRoute .put path h
def patch (r : Router H) (path : Bytes) (h : H) : Router H := r.addRoute .patch path h
def del (r : Router H) (path : Bytes) (h : H) : Router H := r.addRoute .delete path h

def register (r : Router H) (reg : Registration H) : Router H :=
  match reg.verb with
  | .get => r.get reg.path reg.handler
  | .post => r.post reg.path reg.handler
  | .put => r.put reg.path reg.handler
  | .patch => r.patch reg.path reg.handler
  | .del => r.del reg.path reg.handler

def build (regs : List (Registration H)) : Router H := regs.foldl register empty

theorem register_eq (r : Router H) (reg : Registration H) :
    r.register reg = r.addRoute reg.method reg.path reg.handler := by
  obtain ⟨verb, path, h⟩ := reg
  cases verb <;> rfl

theorem build_concat (regs : List (Registration H)) (reg : Registration H) :
    build (regs ++ [reg]) = (build regs).addRoute reg.method reg.path reg.handler := by
  rw [build, List.foldl_concat, register_eq, build]

theorem addRoute_static (r : Router H) {reg : Registration H} (hs : reg.isStatic) :
    r.addRoute reg.method reg.path reg.handler =
      { r with
        staticRoutes := r.staticRoutes.insert reg.norm
          (Function.update ((r.staticRoutes.lookup reg.norm).getD .none)
            (methodIndex reg.method) (some reg.handler)) } :=
  if_pos hs

theorem addRoute_trie (r : Router H) {reg : Registration H} (hs : ¬ reg.isStatic) :
    r.addRoute reg.method reg.path reg.handler =
      { r with root := r.root.insertRoute (methodIndex reg.method) reg.handler reg.segs } :=
  if_neg hs

/-- **The hash map** holds, under a path and a method, the latest static route of the two. -/
theorem lookup_build (regs : List (Registration H)) (norm : Bytes) :
    (∀ i, ((build regs).staticRoutes.lookup norm).getD .none i =
      latest (StaticAt norm i) regs) ∧
    (((build regs).staticRoutes.lookup norm).isSome ↔
      ∃ reg ∈ regs, reg.isStatic ∧ reg.norm = norm) := by
  induction regs using List.reverseRecOn with
  | nil => simp [build, empty, latest, Handlers.none]
  | append_singleton regs reg ih =>
    obtain ⟨hslot, hentry⟩ := ih
    rw [build_concat]
    by_cases hs : reg.isStatic
    · rw [addRoute_static _ hs]
      by_cases hn : norm = reg.norm
      · subst hn
        refine ⟨fun i => ?_, by simp [hs]⟩
        rw [Finmap.lookup_insert, Option.getD_some, latest_concat]
        by_cases hi : i = methodIndex reg.method
        · subst hi
          simp [StaticAt, hs]
        · simp [StaticAt, hi, Ne.symm hi, hslot]
      · have hne : reg.norm ≠ norm := fun e => hn e.symm
        simp [Finmap.lookup_insert_of_ne _ hn, hslot, hentry, latest_concat, StaticAt, hne]
    · rw [addRoute_trie _ hs]
      simp [hslot, hentry, latest_concat, StaticAt, hs]

theorem named_build (regs : List (Registration H)) :
    Trie.Everywhere NodeData.label Node.Named (build regs).root := by
  induction regs using List.reverseRecOn with
  | nil => exact Trie.everywhere_leaf fun h => absurd h (by simp)
  | append_singleton regs reg ih =>
    rw [build_concat]
    by_cases hs : reg.isStatic
    · rwa [addRoute_static _ hs]
    · rw [addRoute_trie _ hs]
      dsimp only
      rw [Node.insertRoute_eq_alter ih]
      exact Trie.Everywhere.alter Node.label_fresh (Node.label_setHandler _ _) Node.named_fresh
        (fun a ha => ha) ih _

/-- A registration for the trie alters it at the end of the route's pattern. -/
theorem root_build_concat (regs : List (Registration H)) (reg : Registration H) :
    (build (regs ++ [reg])).root =
      if reg.isStatic then (build regs).root
      else Trie.alter NodeData.label Node.fresh
        (Node.setHandler (methodIndex reg.method) reg.handler) reg.pattern (build regs).root := by
  rw [build_concat]
  split
  next hs => rw [addRoute_static _ hs]
  next hs =>
    rw [addRoute_trie _ hs]
    exact Node.insertRoute_eq_alter (named_build regs) _ _ _

/-- **The trie** holds, at a path and a method, the latest parameter route of the two. -/
theorem valueAt_build (regs : List (Registration H)) (p : Pattern) (i : Fin 5) :
    Trie.valueAt NodeData.label NodeData.handlers .none p (build regs).root i =
      latest (TrieAt p i) regs := by
  induction regs using List.reverseRecOn with
  | nil => cases p <;> rfl
  | append_singleton regs reg ih =>
    rw [root_build_concat, latest_concat]
    by_cases hs : reg.isStatic
    · simp [TrieAt, hs, ih]
    · rw [if_neg hs, Trie.valueAt_alter Node.label_fresh (Node.label_setHandler _ _)
          (fun slots => Function.update slots (methodIndex reg.method) (some reg.handler))
          (show ∀ k, (Node.fresh k : NodeData H).handlers = .none by intro k; cases k <;> rfl)
          (fun a => rfl)]
      by_cases hp : p = reg.pattern
      · rw [if_pos hp]
        by_cases hi : i = methodIndex reg.method
        · subst hi
          simp [TrieAt, hs, hp]
        · rw [Function.update_of_ne hi, ih, if_neg fun h => hi h.2.2.symm]
      · rw [if_neg hp, ih, if_neg fun h => hp h.2.1.symm]

/-- **The children** at a path of the trie are the segments that routes go on with. -/
theorem labelsAt_build (regs : List (Registration H)) (p : Pattern) :
    Trie.labelsAt NodeData.label p (build regs).root =
      (continuations regs p).foldl Trie.addLabel [] := by
  induction regs using List.reverseRecOn with
  | nil => cases p <;> rfl
  | append_singleton regs reg ih =>
    rw [root_build_concat]
    by_cases hs : reg.isStatic
    · rw [if_pos hs, ih]
      simp [continuations, hs]
    · rw [if_neg hs, Trie.labelsAt_alter Node.label_fresh (Node.label_setHandler _ _), ih]
      cases hk : Trie.nextLabel p reg.pattern <;> simp [continuations, hs, hk]

/-! ## Dispatch by routes -/

/-- A method that has a slot of its own. -/
theorem methodIndex_eq_iff (v : Verb) {m : HttpMethod} (hm : methodToMask m ≠ 0) :
    methodIndex v.method = methodIndex m ↔ v.method = m := by
  cases m <;> first | exact absurd rfl hm | (cases v <;> decide)

/-- **The walk** follows the routes: literal segments before parameters, parameters in order
of registration. -/
theorem walk_build (regs : List (Registration H)) (segs : List Bytes) :
    ((build regs).root.walk segs).2 = (greedy (continuations regs) [] segs).2 ∧
    ∀ i, ((build regs).root.walk segs).1.data.handlers i =
      latest (TrieAt (greedy (continuations regs) [] segs).1 i) regs := by
  have hnext : ∀ p seg,
      preferred (Trie.labelsAt NodeData.label p (build regs).root) seg =
        preferred (continuations regs p) seg := by
    intro p seg
    rw [labelsAt_build]
    exact preferred_congr (fun k => Trie.mem_foldl_addLabel _) (Trie.find?_foldl_addLabel _ _) seg
  obtain ⟨hnode, hdone⟩ := Node.walk_greedy (show Trie.get? NodeData.label []
    (build regs).root = some (build regs).root from rfl) segs
  rw [greedy_congr hnext] at hnode hdone
  refine ⟨hdone.symm, fun i => ?_⟩
  rw [← valueAt_build, Trie.valueAt, hnode]
  rfl

/-- **`matchNode`** finds the parameter routes of a method that match. -/
theorem matchNode_build (regs : List (Registration H)) {m : HttpMethod}
    (hm : methodToMask m ≠ 0) (segs : List Bytes) (params : StringMap) :
    ((build regs).root.matchNode (methodToMask m) segs params).1 = true ↔
      ∃ reg ∈ regs, ¬ reg.isStatic ∧ reg.method = m ∧ reg.pattern.Matches segs := by
  have hnd : ∀ p, (Trie.labelsAt NodeData.label p (build regs).root).Nodup := fun p => by
    rw [labelsAt_build]
    exact Trie.nodup_foldl_addLabel _
  rw [Node.matchNode_iff hnd]
  simp only [Handlers.handlerFor_methodToMask _ hm, valueAt_build, latest_isSome]
  constructor
  · rintro ⟨p, hp, reg, hreg, hs, rfl, hi⟩
    exact ⟨reg, hreg, hs, (methodIndex_eq_iff _ hm).mp hi, hp⟩
  · rintro ⟨reg, hreg, hs, hmeth, hp⟩
    exact ⟨reg.pattern, hp, reg, hreg, hs, rfl, (methodIndex_eq_iff _ hm).mpr hmeth⟩

end Router

end XNetty
