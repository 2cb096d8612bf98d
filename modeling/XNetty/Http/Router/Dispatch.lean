import XNetty.Http.Router.Routes

/-!
# Dispatch

What `onRequest` does, by the registered routes: when the handler it calls is the one of a
route that matches, and when it gives the one answer that the routes ask for. Both fail on
routes that overlap, because the handler is looked up by a walk that never goes back.

## Main definitions

* `Router.Sound`, `Router.Misled` — the handler called is right, and when it is not.
* `Router.Answers`, `Router.Answerable` — the request is answered, and when it is.
-/

namespace XNetty

variable {H : Type*}

namespace Router

/-- The segments of a request. -/
def requestSegs (req : HttpRequest) : List Bytes := splitPath (requestPath req)

/-- Some static route has the request's path, whatever its method. -/
def HasStatic (regs : List (Registration H)) (req : HttpRequest) : Prop :=
  ∃ reg ∈ regs, reg.isStatic ∧ reg.norm = requestPath req

/-- Some route of the trie and of the request's method matches. -/
def HasMatch (regs : List (Registration H)) (req : HttpRequest) : Prop :=
  ∃ reg ∈ regs, ¬ reg.isStatic ∧ reg.method = req.method ∧ reg.pattern.Matches (requestSegs req)

/-- Where the walk ends, and whether it took every segment. -/
def walked (regs : List (Registration H)) (req : HttpRequest) : Pattern × Bool :=
  greedy (continuations regs) [] (requestSegs req)

/-! ## The three ways through `onRequest` -/

section cases

variable {regs : List (Registration H)} {req : HttpRequest} (hm : methodToMask req.method ≠ 0)
include hm

theorem onRequest_of_static (hs : HasStatic regs req) :
    (build regs).onRequest req =
      match latest (StaticAt (requestPath req) (methodIndex req.method)) regs with
      | some h => [.invoke h req]
      | none => [.writeAndFlush methodNotAllowed] := by
  obtain ⟨hslot, hentry⟩ := lookup_build regs (requestPath req)
  obtain ⟨handlers, hlook⟩ := Option.isSome_iff_exists.mp (hentry.mpr hs)
  rw [hlook, Option.getD_some] at hslot
  have hany : (List.finRange 5).any (fun i => (handlers i).isSome) = true := by
    obtain ⟨reg, hreg, hstat, hnorm⟩ := hs
    rw [List.any_eq_true]
    refine ⟨methodIndex reg.method, List.mem_finRange _, ?_⟩
    rw [hslot, latest_isSome]
    exact ⟨reg, hreg, hstat, hnorm, rfl⟩
  unfold onRequest
  rw [if_neg hm]
  simp only [hlook, hslot] at hany ⊢
  cases latest (StaticAt (requestPath req) (methodIndex req.method)) regs with
  | some h => rfl
  | none => simp only [hany, if_true]

theorem onRequest_of_match (hs : ¬ HasStatic regs req) (hmatch : HasMatch regs req) :
    (build regs).onRequest req =
      match latest (TrieAt (walked regs req).1 (methodIndex req.method)) regs with
      | some h => [.invoke h (req.setParams
          ((build regs).root.matchNode (methodToMask req.method) (requestSegs req) ∅).2)]
      | none => [] := by
  have hlook : (build regs).staticRoutes.lookup (requestPath req) = none := by
    rw [← Option.not_isSome_iff_eq_none, (lookup_build regs _).2]
    exact hs
  have hfound := (matchNode_build regs hm (requestSegs req) ∅).mpr hmatch
  have hnode := (walk_build regs (requestSegs req)).2 (methodIndex req.method)
  unfold onRequest
  rw [if_neg hm]
  unfold requestSegs at hfound hnode
  simp only [hlook, hfound, if_true, Handlers.handlerFor_methodToMask _ hm, hnode]
  rfl

theorem onRequest_of_none (hs : ¬ HasStatic regs req) (hmatch : ¬ HasMatch regs req) :
    (build regs).onRequest req =
      if (walked regs req).2 = true ∧
          ∃ reg ∈ regs, ¬ reg.isStatic ∧ reg.pattern = (walked regs req).1 then
        [.writeAndFlush methodNotAllowed]
      else [.writeAndFlush notFound] := by
  have hlook : (build regs).staticRoutes.lookup (requestPath req) = none := by
    rw [← Option.not_isSome_iff_eq_none, (lookup_build regs _).2]
    exact hs
  have hfound := Bool.eq_false_iff.mpr
    fun h => hmatch ((matchNode_build regs hm (requestSegs req) ∅).mp h)
  obtain ⟨hdone, hnode⟩ := walk_build regs (requestSegs req)
  have hslots : (∃ i, (latest (TrieAt (walked regs req).1 i) regs).isSome) ↔
      ∃ reg ∈ regs, ¬ reg.isStatic ∧ reg.pattern = (walked regs req).1 := by
    simp only [latest_isSome]
    constructor
    · rintro ⟨i, reg, hreg, htrie, hp, -⟩
      exact ⟨reg, hreg, htrie, hp⟩
    · rintro ⟨reg, hreg, htrie, hp⟩
      exact ⟨_, reg, hreg, htrie, hp, rfl⟩
  have hmask : ((build regs).root.walk (requestSegs req)).1.data.handlers.methodMask ≠ 0 ↔
      ∃ reg ∈ regs, ¬ reg.isStatic ∧ reg.pattern = (walked regs req).1 := by
    rw [Handlers.methodMask_ne_zero, ← hslots]
    simp only [hnode]
    rfl
  unfold onRequest
  rw [if_neg hm]
  unfold requestSegs at hfound hmask hdone
  simp only [hlook, hfound, Bool.false_eq_true, if_false, hdone, hmask]
  rfl

end cases

/-! ## Whose handler is called -/

/-- `h` is the latest handler of a route of the request's method that matches the request,
and `given` carries that route's parameters. A route is a verb and a normalized path. -/
def HandlerOf (regs : List (Registration H)) (req : HttpRequest) (h : H)
    (given : HttpRequest) : Prop :=
  ∃ before reg after, regs = before ++ reg :: after ∧ reg.handler = h ∧
    (∀ r ∈ after, ¬ (r.verb = reg.verb ∧ r.norm = reg.norm)) ∧
    reg.method = req.method ∧ reg.pattern.Matches (requestSegs req) ∧
    (reg.pattern.any Segment.isParam → given.params = reg.pattern.bindings (requestSegs req) ∅)

/-- Whatever handler is called is the one of a matching route. -/
def Sound (regs : List (Registration H)) (req : HttpRequest) : Prop :=
  ∀ h given, .invoke h given ∈ (build regs).onRequest req → HandlerOf regs req h given

/-- The walk gives up at a route of the method, on a path that another route of the trie
matches and no static route has. -/
def Misled (regs : List (Registration H)) (req : HttpRequest) : Prop :=
  ¬ HasStatic regs req ∧ HasMatch regs req ∧ (walked regs req).2 = false ∧
    ∃ reg ∈ regs, ¬ reg.isStatic ∧ reg.method = req.method ∧ reg.pattern = (walked regs req).1

/-- A registration's route determines its slot. -/
theorem isStatic_congr {r reg : Registration H} (h : r.norm = reg.norm) :
    r.isStatic ↔ reg.isStatic := by
  simp only [Registration.isStatic, Registration.segs, h]

theorem pattern_congr {r reg : Registration H} (h : r.norm = reg.norm) :
    r.pattern = reg.pattern := by
  simp only [Registration.pattern, Registration.segs, h]

/-- A static route's segments are literal. -/
theorem pattern_of_static {reg : Registration H} (hs : reg.isStatic) :
    reg.pattern = reg.segs.map Segment.literal := by
  refine List.map_congr_left fun seg hseg => ?_
  have hcolon : seg.head? ≠ some colon := fun h =>
    hs.1 (List.any_eq_true.mpr ⟨seg, hseg, by simpa using h⟩)
  rw [Segment.ofBytes, if_neg fun h => hcolon h.1]

theorem handlerOf_static {regs : List (Registration H)} {req : HttpRequest}
    (hm : methodToMask req.method ≠ 0) {h : H}
    (hl : latest (StaticAt (requestPath req) (methodIndex req.method)) regs = some h) :
    HandlerOf regs req h req := by
  obtain ⟨before, reg, after, hregs, ⟨hs, hnorm, hi⟩, hh, hafter⟩ := latest_eq_some hl
  have hsegs : requestSegs req = reg.segs := by rw [requestSegs, ← hnorm]; rfl
  refine ⟨before, reg, after, hregs, hh, fun r hr hsame => ?_,
    (methodIndex_eq_iff _ hm).mp hi, ?_, fun hp => ?_⟩
  · obtain ⟨hverb, hpath⟩ := hsame
    refine hafter r hr ⟨(isStatic_congr hpath).mpr hs, hpath.trans hnorm, ?_⟩
    rw [Registration.method, hverb]
    exact hi
  · rw [pattern_of_static hs, hsegs]
    exact Pattern.matches_literal _
  · rw [pattern_of_static hs] at hp
    simp [Segment.isParam] at hp

theorem handlerOf_walk {regs : List (Registration H)} {req : HttpRequest}
    (hm : methodToMask req.method ≠ 0) (hdone : (walked regs req).2 = true) {h : H}
    (hl : latest (TrieAt (walked regs req).1 (methodIndex req.method)) regs = some h) :
    HandlerOf regs req h (req.setParams
      ((build regs).root.matchNode (methodToMask req.method) (requestSegs req) ∅).2) := by
  obtain ⟨hw, hnode⟩ := walk_build regs (requestSegs req)
  have hslot : ((build regs).root.walk (requestSegs req)).1.data.handlers
      (methodIndex req.method) = some h := (hnode _).trans hl
  have hhandler : (((build regs).root.walk (requestSegs req)).1.data.handlers.handlerFor
      (methodToMask req.method)).isSome := by
    rw [Handlers.handlerFor_methodToMask _ hm, hslot]
    rfl
  -- the path that `matchNode` took, and the route at its end
  obtain ⟨p, hget, hp, hmatch⟩ :=
    Node.matchNode_of_walk (named_build regs) (hw.trans hdone) hhandler
  have hroute : latest (TrieAt p (methodIndex req.method)) regs = some h := by
    rw [← valueAt_build, Trie.valueAt, hget]
    exact hslot
  obtain ⟨before, reg, after, hregs, ⟨hs, rfl, hi⟩, hh, hafter⟩ := latest_eq_some hroute
  refine ⟨before, reg, after, hregs, hh, fun r hr hsame => ?_,
    (methodIndex_eq_iff _ hm).mp hi, hp, fun _ => by rw [hmatch]; rfl⟩
  obtain ⟨hverb, hpath⟩ := hsame
  refine hafter r hr ⟨fun h => hs ((isStatic_congr hpath).mp h), pattern_congr hpath, ?_⟩
  rw [Registration.method, hverb]
  exact hi

/-- Where the walk is not misled, a handler that is called is right. -/
theorem sound_of_not_misled {regs : List (Registration H)} {req : HttpRequest}
    (hright : ¬ Misled regs req) : Sound regs req := by
  intro h given hcall
  by_cases hm : methodToMask req.method = 0
  · rw [onRequest, if_pos hm] at hcall
    simp at hcall
  by_cases hs : HasStatic regs req
  · rw [onRequest_of_static hm hs] at hcall
    cases hl : latest (StaticAt (requestPath req) (methodIndex req.method)) regs with
    | none => simp [hl] at hcall
    | some h' =>
      obtain ⟨rfl, rfl⟩ : h = h' ∧ given = req := by simpa [hl] using hcall
      exact handlerOf_static hm hl
  by_cases hmatch : HasMatch regs req
  · rw [onRequest_of_match hm hs hmatch] at hcall
    cases hl : latest (TrieAt (walked regs req).1 (methodIndex req.method)) regs with
    | none => simp [hl] at hcall
    | some h' =>
      obtain ⟨rfl, rfl⟩ := by simpa [hl] using hcall
      refine handlerOf_walk hm (Bool.not_eq_false _ ▸ fun hstop => hright ?_) hl
      obtain ⟨reg, hreg, htrie, hpat, hi⟩ :=
        latest_isSome.mp (Option.isSome_iff_exists.mpr ⟨_, hl⟩)
      exact ⟨hs, hmatch, hstop, reg, hreg, htrie, (methodIndex_eq_iff _ hm).mp hi, hpat⟩
  · rw [onRequest_of_none hm hs hmatch] at hcall
    split at hcall <;> simp at hcall

/-- A misled walk calls the handler of a route that is too short to match. -/
theorem Misled.calls {regs : List (Registration H)} {req : HttpRequest} (h : Misled regs req) :
    ∃ reg ∈ regs, reg.pattern.length < (requestSegs req).length ∧
      ∃ given, .invoke reg.handler given ∈ (build regs).onRequest req := by
  obtain ⟨hs, hmatch, hstop, reg, hreg, htrie, hmeth, hpat⟩ := h
  have hm : methodToMask req.method ≠ 0 := by
    rw [← hmeth, Registration.method]
    cases reg.verb <;> decide
  have hslot : (latest (TrieAt (walked regs req).1 (methodIndex req.method)) regs).isSome :=
    latest_isSome.mpr ⟨reg, hreg, htrie, hpat, by rw [hmeth]⟩
  obtain ⟨h, hl⟩ := Option.isSome_iff_exists.mp hslot
  obtain ⟨before, reg', after, hregs, ⟨-, hpat', -⟩, rfl, -⟩ := latest_eq_some hl
  have hcall : ∃ given, .invoke reg'.handler given ∈ (build regs).onRequest req := by
    simp [onRequest_of_match hm hs hmatch, hl]
  refine ⟨reg', by rw [hregs]; simp, ?_, hcall⟩
  rw [hpat']
  simpa [walked] using length_greedy hstop

/-- Registrations whose handlers are told apart: each is the position of its registration. -/
def numbered (routes : List (Verb × Bytes)) : List (Registration ℕ) :=
  routes.mapIdx fun i route => ⟨route.1, route.2, i⟩

theorem numbered_injective {routes : List (Verb × Bytes)} {r r' : Registration ℕ}
    (hr : r ∈ numbered routes) (hr' : r' ∈ numbered routes) (h : r.handler = r'.handler) :
    r = r' := by
  obtain ⟨i, hi, rfl⟩ := List.mem_mapIdx.mp hr
  obtain ⟨j, hj, rfl⟩ := List.mem_mapIdx.mp hr'
  obtain rfl : i = j := h
  rfl

/-- **Dispatch is sound exactly when the walk is not misled**, for every sequence of
registrations and every request. -/
theorem sound_iff (routes : List (Verb × Bytes)) (req : HttpRequest) :
    Sound (numbered routes) req ↔ ¬ Misled (numbered routes) req := by
  refine ⟨fun hsound hmis => ?_, sound_of_not_misled⟩
  obtain ⟨reg, hreg, hshort, given, hcall⟩ := hmis.calls
  obtain ⟨before, reg', after, hregs, hh, -, -, hp, -⟩ := hsound _ _ hcall
  have hreg' : reg' ∈ numbered routes := by rw [hregs]; simp
  obtain rfl := numbered_injective hreg' hreg hh
  rw [hp.length_eq] at hshort
  exact lt_irrefl _ hshort

/-- `GET /:x` is called for `/1/b/2`, which only `GET /:y/b/:z` matches. -/
theorem not_sound_stops_early :
    ¬ Sound (numbered [(.get, ascii "/:x"), (.get, ascii "/:y/b/:z")])
      { method := .get, uri := ascii "/1/b/2" } := by
  intro h
  obtain ⟨before, reg, after, hregs, hh, -, -, hp, -⟩ :=
    h 0 _ (List.mem_singleton.mpr rfl)
  have hreg : reg ∈ numbered [(.get, ascii "/:x"), (.get, ascii "/:y/b/:z")] := by
    rw [hregs]; simp
  obtain rfl : reg = ⟨.get, ascii "/:x", 0⟩ :=
    numbered_injective hreg (by simp [numbered]) hh
  exact absurd hp.length_eq (by decide)

/-! ## Which answer is given -/

/-- Some route of the request's method matches. -/
def Matched (regs : List (Registration H)) (req : HttpRequest) : Prop :=
  ∃ reg ∈ regs, reg.method = req.method ∧ reg.pattern.Matches (requestSegs req)

/-- Some route matches, whatever its method. -/
def PathMatched (regs : List (Registration H)) (req : HttpRequest) : Prop :=
  ∃ reg ∈ regs, reg.pattern.Matches (requestSegs req)

/-- The outcome that the routes ask for is the outcome of `onRequest`. -/
def Answers (regs : List (Registration H)) (req : HttpRequest) : Prop :=
  (Matched regs req → ∃ h given, (build regs).onRequest req = [.invoke h given]) ∧
  (¬ Matched regs req → PathMatched regs req →
    (build regs).onRequest req = [.writeAndFlush methodNotAllowed]) ∧
  (¬ PathMatched regs req → (build regs).onRequest req = [.writeAndFlush notFound])

/-- Some static route has the request's method and path. -/
def HasStaticOf (regs : List (Registration H)) (req : HttpRequest) : Prop :=
  ∃ reg ∈ regs, reg.isStatic ∧ reg.norm = requestPath req ∧ reg.method = req.method

/-- Where the routes do not get in each other's way: a static route of another method hides
no match, a match in the trie is where the walk ends, and where there is none the walk
takes every segment to a route if any route matches at all. -/
def Answerable (regs : List (Registration H)) (req : HttpRequest) : Prop :=
  (HasStatic regs req → HasStaticOf regs req ∨ ¬ Matched regs req) ∧
  (¬ HasStatic regs req → HasMatch regs req →
    ∃ reg ∈ regs, ¬ reg.isStatic ∧ reg.method = req.method ∧
      reg.pattern = (walked regs req).1) ∧
  (¬ HasStatic regs req → ¬ HasMatch regs req →
    ¬ Matched regs req ∧
      (PathMatched regs req → (walked regs req).2 = true ∧
        ∃ reg ∈ regs, ¬ reg.isStatic ∧ reg.pattern = (walked regs req).1))

section answers

variable {regs : List (Registration H)} {req : HttpRequest}

theorem static_matches {reg : Registration H} (hs : reg.isStatic)
    (hn : reg.norm = requestPath req) : reg.pattern.Matches (requestSegs req) := by
  have hsegs : requestSegs req = reg.segs := by rw [requestSegs, ← hn]; rfl
  rw [pattern_of_static hs, hsegs]
  exact Pattern.matches_literal _

theorem HasStaticOf.matched (h : HasStaticOf regs req) : Matched regs req := by
  obtain ⟨reg, hreg, hs, hn, hm⟩ := h
  exact ⟨reg, hreg, hm, static_matches hs hn⟩

theorem HasStatic.pathMatched (h : HasStatic regs req) : PathMatched regs req := by
  obtain ⟨reg, hreg, hs, hn⟩ := h
  exact ⟨reg, hreg, static_matches hs hn⟩

theorem HasMatch.matched (h : HasMatch regs req) : Matched regs req := by
  obtain ⟨reg, hreg, -, hm, hp⟩ := h
  exact ⟨reg, hreg, hm, hp⟩

theorem Matched.pathMatched (h : Matched regs req) : PathMatched regs req := by
  obtain ⟨reg, hreg, -, hp⟩ := h
  exact ⟨reg, hreg, hp⟩

theorem methodNotAllowed_ne_notFound : methodNotAllowed ≠ notFound := by decide

variable (hm : methodToMask req.method ≠ 0)
include hm

/-- A path in the hash map: its own method decides. -/
theorem answers_static_iff (hs : HasStatic regs req) :
    Answers regs req ↔ HasStaticOf regs req ∨ ¬ Matched regs req := by
  have hcall := onRequest_of_static hm hs
  have hslot : (latest (StaticAt (requestPath req) (methodIndex req.method)) regs).isSome ↔
      HasStaticOf regs req := by
    rw [latest_isSome]
    refine exists_congr fun reg => and_congr_right fun _ => and_congr_right fun _ =>
      and_congr_right fun _ => methodIndex_eq_iff _ hm
  cases hl : latest (StaticAt (requestPath req) (methodIndex req.method)) regs with
  | some h =>
    have hof : HasStaticOf regs req := hslot.mp (by rw [hl]; rfl)
    rw [hl] at hcall
    exact ⟨fun _ => .inl hof, fun _ => ⟨fun _ => ⟨h, req, hcall⟩,
      fun hno => absurd hof.matched hno, fun hno => absurd hs.pathMatched hno⟩⟩
  | none =>
    have hof : ¬ HasStaticOf regs req := fun h => by simpa [hl] using hslot.mpr h
    rw [hl] at hcall
    constructor
    · rintro ⟨hmatched, -, -⟩
      refine .inr fun h => ?_
      obtain ⟨h, given, hinvoke⟩ := hmatched h
      simp [hcall] at hinvoke
    · rintro (h | h)
      · exact absurd h hof
      · exact ⟨fun h' => absurd h' h, fun _ _ => hcall, fun hno => absurd hs.pathMatched hno⟩

/-- A match in the trie: the end of the walk decides. -/
theorem answers_match_iff (hs : ¬ HasStatic regs req) (hmatch : HasMatch regs req) :
    Answers regs req ↔ ∃ reg ∈ regs, ¬ reg.isStatic ∧ reg.method = req.method ∧
      reg.pattern = (walked regs req).1 := by
  have hcall := onRequest_of_match hm hs hmatch
  have hslot : (latest (TrieAt (walked regs req).1 (methodIndex req.method)) regs).isSome ↔
      ∃ reg ∈ regs, ¬ reg.isStatic ∧ reg.method = req.method ∧
        reg.pattern = (walked regs req).1 := by
    rw [latest_isSome]
    refine exists_congr fun reg => and_congr_right fun _ => and_congr_right fun _ => ?_
    rw [and_comm]
    exact and_congr_left fun _ => methodIndex_eq_iff _ hm
  rw [← hslot]
  cases hl : latest (TrieAt (walked regs req).1 (methodIndex req.method)) regs with
  | some h =>
    rw [hl] at hcall
    exact ⟨fun _ => rfl, fun _ => ⟨fun _ => ⟨h, _, hcall⟩,
      fun hno => absurd hmatch.matched hno, fun hno => absurd hmatch.matched.pathMatched hno⟩⟩
  | none =>
    rw [hl] at hcall
    refine ⟨fun hans => ?_, fun h => by simp at h⟩
    obtain ⟨h, given, hinvoke⟩ := hans.1 hmatch.matched
    simp [hcall] at hinvoke

/-- No match in the trie: the walk tells 405 from 404. -/
theorem answers_none_iff (hs : ¬ HasStatic regs req) (hmatch : ¬ HasMatch regs req) :
    Answers regs req ↔ ¬ Matched regs req ∧
      (PathMatched regs req → (walked regs req).2 = true ∧
        ∃ reg ∈ regs, ¬ reg.isStatic ∧ reg.pattern = (walked regs req).1) := by
  have hcall := onRequest_of_none hm hs hmatch
  by_cases hwalk : (walked regs req).2 = true ∧
      ∃ reg ∈ regs, ¬ reg.isStatic ∧ reg.pattern = (walked regs req).1
  · rw [if_pos hwalk] at hcall
    have hpath : PathMatched regs req := by
      obtain ⟨hdone, reg, hreg, -, hpat⟩ := hwalk
      refine ⟨reg, hreg, ?_⟩
      rw [hpat]
      exact greedy_matches (show Pattern.Matches [] [] from trivial) hdone
    constructor
    · intro hans
      refine ⟨fun h => ?_, fun _ => hwalk⟩
      obtain ⟨h, given, hinvoke⟩ := hans.1 h
      simp [hcall] at hinvoke
    · rintro ⟨hno, -⟩
      exact ⟨fun h => absurd h hno, fun _ _ => hcall, fun h => absurd hpath h⟩
  · rw [if_neg hwalk] at hcall
    constructor
    · intro hans
      have hno : ¬ Matched regs req := fun h => by
        obtain ⟨h, given, hinvoke⟩ := hans.1 h
        simp [hcall] at hinvoke
      refine ⟨hno, fun hpath => ?_⟩
      have hanswer := hcall.symm.trans (hans.2.1 hno hpath)
      simp [methodNotAllowed_ne_notFound.symm] at hanswer
    · rintro ⟨hno, hpath⟩
      exact ⟨fun h => absurd h hno, fun _ h => absurd (hpath h) hwalk, fun _ => hcall⟩

end answers

/-- **Dispatch answers exactly when the routes do not get in each other's way**, for every
sequence of registrations and every request of one of the five methods. -/
theorem answers_iff (regs : List (Registration H)) (req : HttpRequest)
    (hmethod : req.method ∈ [.get, .post, .put, .patch, .delete]) :
    Answers regs req ↔ Answerable regs req := by
  have hm : methodToMask req.method ≠ 0 := by
    revert hmethod
    cases req.method <;> decide
  unfold Answerable
  by_cases hs : HasStatic regs req
  · simp [answers_static_iff hm hs, hs]
  · by_cases hmatch : HasMatch regs req
    · simp [answers_match_iff hm hs hmatch, hs, hmatch]
    · simp [answers_none_iff hm hs hmatch, hs, hmatch]

/-- `POST /a/b` in the hash map hides `GET /a/:x` from `GET /a/b`. -/
theorem not_answers_hidden :
    ¬ Answers ([⟨.post, ascii "/a/b", 0⟩, ⟨.get, ascii "/a/:x", 1⟩] : List (Registration ℕ))
      { method := .get, uri := ascii "/a/b" } := by
  rintro ⟨hmatched, -, -⟩
  obtain ⟨h, given, hinvoke⟩ :=
    hmatched ⟨⟨.get, ascii "/a/:x", 1⟩, by simp, rfl, rfl, trivial, trivial⟩
  have hanswer : (build ([⟨.post, ascii "/a/b", 0⟩, ⟨.get, ascii "/a/:x", 1⟩] :
      List (Registration ℕ))).onRequest { method := .get, uri := ascii "/a/b" } =
        [.writeAndFlush methodNotAllowed] := rfl
  rw [hanswer] at hinvoke
  simp at hinvoke

/-- A request that no overlap concerns. -/
theorem answers_iff_params :
    Answers ([⟨.get, ascii "/a/:x", 0⟩] : List (Registration ℕ))
        { method := .get, uri := ascii "/a/b" } ↔
      Answerable ([⟨.get, ascii "/a/:x", 0⟩] : List (Registration ℕ))
        { method := .get, uri := ascii "/a/b" } :=
  answers_iff [⟨.get, ascii "/a/:x", 0⟩] { method := .get, uri := ascii "/a/b" } (by decide)

end Router

end XNetty
