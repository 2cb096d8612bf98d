import Mathlib.Data.List.TakeWhile
import XNetty.Http.Router.Dispatch
import XNetty.Http.Router.Similar

/-!
# The order of registration

A router is built by calls in some order. Where no two routes share a slot and no two of them
name one segment differently, every order builds a router that does the same; where two do,
some order makes a difference to some request.

## Main definitions

* `Router.Unambiguous` — registrations whose order does not show.
* `Router.sampleRequest` — a request for a route that avoids the literals of all others.
-/

namespace XNetty

variable {H : Type*}

/-- A text that the segment matches. -/
def Segment.sample (fresh : Bytes) : Segment → Bytes
  | .literal text => text
  | .param _ => fresh

namespace Router

/-! ## Registrations whose order does not show -/

/-- The later of two such registrations takes the slot of the earlier. -/
def SameSlot (reg reg' : Registration H) : Prop :=
  reg.verb = reg'.verb ∧ (reg.isStatic ↔ reg'.isStatic) ∧
    if reg.isStatic then reg.norm = reg'.norm else reg.pattern = reg'.pattern

/-- No two registrations have one slot, and behind a path all parameters have one name. -/
structure Unambiguous (regs : List (Registration H)) : Prop where
  slots : regs.Pairwise fun reg reg' => ¬ SameSlot reg reg'
  names : ∀ p a b, .param a ∈ continuations regs p → .param b ∈ continuations regs p → a = b

theorem SameSlot.symm {reg reg' : Registration H} (h : SameSlot reg reg') :
    SameSlot reg' reg := by
  obtain ⟨hverb, hstatic, hkey⟩ := h
  refine ⟨hverb.symm, hstatic.symm, ?_⟩
  by_cases hs : reg.isStatic
  · rw [if_pos hs] at hkey
    rw [if_pos (hstatic.mp hs), hkey]
  · rw [if_neg hs] at hkey
    rw [if_neg (hs ∘ hstatic.mpr), hkey]

theorem Verb.eq_of_methodIndex {v w : Verb} (h : methodIndex v.method = methodIndex w.method) :
    v = w := by
  cases v <;> cases w <;> first | rfl | exact absurd h (by decide)

theorem sameSlot_of_staticAt {norm : Bytes} {i : Fin 5} {reg reg' : Registration H}
    (h : StaticAt norm i reg) (h' : StaticAt norm i reg') : SameSlot reg reg' := by
  obtain ⟨hs, rfl, rfl⟩ := h
  obtain ⟨hs', hnorm, hi⟩ := h'
  refine ⟨(Verb.eq_of_methodIndex hi).symm, iff_of_true hs hs', ?_⟩
  rw [if_pos hs, hnorm]

theorem sameSlot_of_trieAt {p : Pattern} {i : Fin 5} {reg reg' : Registration H}
    (h : TrieAt p i reg) (h' : TrieAt p i reg') : SameSlot reg reg' := by
  obtain ⟨hs, rfl, rfl⟩ := h
  obtain ⟨hs', hpattern, hi⟩ := h'
  refine ⟨(Verb.eq_of_methodIndex hi).symm, iff_of_false hs hs', ?_⟩
  rw [if_neg hs, hpattern]

/-- The first parameter, where there is one name. -/
theorem find?_isParam {ks : List Segment} (hnames : ∀ a b, .param a ∈ ks → .param b ∈ ks → a = b)
    {name : Bytes} (hname : .param name ∈ ks) :
    ks.find? Segment.isParam = some (.param name) := by
  cases hfind : ks.find? Segment.isParam with
  | none => exact absurd rfl (List.find?_eq_none.mp hfind _ hname)
  | some k =>
    have hp := List.find?_some hfind
    cases k with
    | literal text => simp [Segment.isParam] at hp
    | param a => rw [hnames a name (List.mem_of_find?_eq_some hfind) hname]

section perm

variable {regs regs' : List (Registration H)} (hperm : regs'.Perm regs)
include hperm

theorem continuations_perm (p : Pattern) :
    (continuations regs' p).Perm (continuations regs p) :=
  (hperm.filter _).filterMap _

theorem Unambiguous.perm (h : Unambiguous regs) : Unambiguous regs' where
  slots := h.slots.perm hperm.symm fun hne hsame => hne hsame.symm
  names p a b ha hb := h.names p a b ((continuations_perm hperm p).mem_iff.mp ha)
    ((continuations_perm hperm p).mem_iff.mp hb)

/-- A slot that one registration at most can take is filled alike in every order. -/
theorem latest_perm {P : Registration H → Prop} [DecidablePred P]
    (hslots : regs.Pairwise fun reg reg' => ¬ SameSlot reg reg')
    (hP : ∀ reg reg', P reg → P reg' → SameSlot reg reg') : latest P regs' = latest P regs := by
  have hfilter : (regs.filter fun reg => decide (P reg)).length ≤ 1 := by
    have hpair := hslots.filter fun reg => decide (P reg)
    match hl : regs.filter fun reg => decide (P reg) with
    | [] => simp
    | [reg] => simp
    | reg :: reg' :: rest =>
      have hmem : ∀ r ∈ [reg, reg'], P r := fun r hr => by
        have hr : r ∈ regs.filter fun reg => decide (P reg) := by
          rw [hl]
          exact List.mem_of_mem_take (i := 2) hr
        exact of_decide_eq_true (List.mem_filter.mp hr).2
      rw [hl] at hpair
      exact absurd (hP _ _ (hmem reg (by simp)) (hmem reg' (by simp)))
        (List.rel_of_pairwise_cons hpair List.mem_cons_self)
  have hperm' := hperm.filter fun reg => decide (P reg)
  unfold latest
  match hl : regs.filter fun reg => decide (P reg) with
  | [] => rw [hl] at hperm'; rw [hperm'.eq_nil]
  | [reg] => rw [hl] at hperm'; rw [hperm'.eq_singleton]
  | reg :: reg' :: rest => simp [hl] at hfilter

theorem similar_build (h : Unambiguous regs) :
    Node.Similar (build regs').root (build regs).root where
  named := named_build regs'
  named' := named_build regs
  nodup p := labelsAt_build regs' p ▸ Trie.nodup_foldl_addLabel _
  nodup' p := labelsAt_build regs p ▸ Trie.nodup_foldl_addLabel _
  labels p k := by
    rw [labelsAt_build, labelsAt_build, Trie.mem_foldl_addLabel, Trie.mem_foldl_addLabel,
      (continuations_perm hperm p).mem_iff]
  values p := by
    funext i
    rw [valueAt_build, valueAt_build,
      latest_perm hperm h.slots fun _ _ => sameSlot_of_trieAt]
  lone p a b ha hb := by
    rw [labelsAt_build, Trie.mem_foldl_addLabel] at ha hb
    exact (h.perm hperm).names p a b ha hb

theorem find?_isParam_perm {p : Pattern} (hnames : ∀ a b, .param a ∈ continuations regs p →
      .param b ∈ continuations regs p → a = b) :
    (continuations regs' p).find? Segment.isParam =
      (continuations regs p).find? Segment.isParam := by
  have hmem : ∀ k, k ∈ continuations regs' p ↔ k ∈ continuations regs p :=
    fun k => (continuations_perm hperm p).mem_iff
  by_cases hparam : ∃ name, .param name ∈ continuations regs p
  · obtain ⟨name, hname⟩ := hparam
    rw [find?_isParam hnames hname, find?_isParam (by simpa only [hmem] using hnames)
      ((hmem _).mpr hname)]
  · have hnone : ∀ k ∈ continuations regs p, ¬ k.isParam := fun k hk hp => by
      cases k with
      | literal text => simp [Segment.isParam] at hp
      | param name => exact hparam ⟨name, hk⟩
    rw [List.find?_eq_none.mpr hnone,
      List.find?_eq_none.mpr fun k hk => hnone k ((hmem k).mp hk)]

theorem walked_perm (h : Unambiguous regs) (req : HttpRequest) :
    walked regs' req = walked regs req :=
  greedy_congr (fun p => preferred_congr (fun _ => (continuations_perm hperm p).mem_iff)
    (find?_isParam_perm hperm (h.names p))) [] _

/-- **The order does not show** where nothing is ambiguous. -/
theorem Unambiguous.onRequest_perm (h : Unambiguous regs) (req : HttpRequest) :
    (build regs').onRequest req = (build regs).onRequest req := by
  by_cases hm : methodToMask req.method = 0
  · rw [onRequest, onRequest, if_pos hm, if_pos hm]
  have hstatic : HasStatic regs' req ↔ HasStatic regs req := by
    simp only [HasStatic, hperm.mem_iff]
  have hmatch : HasMatch regs' req ↔ HasMatch regs req := by
    simp only [HasMatch, hperm.mem_iff]
  by_cases hs : HasStatic regs req
  · rw [onRequest_of_static hm (hstatic.mpr hs), onRequest_of_static hm hs,
      latest_perm hperm h.slots fun _ _ => sameSlot_of_staticAt]
  by_cases hfound : HasMatch regs req
  · rw [onRequest_of_match hm (hs ∘ hstatic.mp) (hmatch.mpr hfound),
      onRequest_of_match hm hs hfound, walked_perm hperm h,
      latest_perm hperm h.slots fun _ _ => sameSlot_of_trieAt,
      (similar_build hperm h).matchNode_eq]
  · rw [onRequest_of_none hm (hs ∘ hstatic.mp) (hfound ∘ hmatch.mp),
      onRequest_of_none hm hs hfound, walked_perm hperm h]
    simp only [hperm.mem_iff]

end perm

/-! ## Requests that tell orders apart -/

/-- The segments of `p` with `fresh` for its parameters. -/
def sampleSegs (fresh : Bytes) (p : Pattern) : List Bytes := p.map (Segment.sample fresh)

/-- A request for the segments `segs`. -/
def sampleRequest (v : Verb) (segs : List Bytes) : HttpRequest :=
  { method := v.method, uri := segs.flatMap fun seg => slash :: seg }

/-- A segment that can stand in a URI. -/
def PathSegment (seg : Bytes) : Prop := seg ≠ [] ∧ slash ∉ seg ∧ 63 ∉ seg

theorem splitFrom_append {seg : Bytes} (hseg : slash ∉ seg) (piece path : Bytes) :
    splitFrom piece (seg ++ path) = splitFrom (piece ++ seg) path := by
  induction seg generalizing piece with
  | nil => simp
  | cons c seg ih =>
    have hc : ¬ c = slash := fun h => hseg (h ▸ List.mem_cons_self)
    rw [List.cons_append, splitFrom, if_neg hc, ih fun h => hseg (List.mem_cons_of_mem c h),
      List.append_assoc, List.singleton_append]

theorem splitFrom_flatMap {segs : List Bytes} (hsegs : ∀ seg ∈ segs, PathSegment seg)
    (piece : Bytes) :
    splitFrom piece (segs.flatMap fun seg => slash :: seg) =
      if piece = [] then segs else piece :: segs := by
  induction segs generalizing piece with
  | nil => rw [List.flatMap_nil, splitFrom]
  | cons seg segs ih =>
    obtain ⟨⟨hne, hslash, -⟩, hsegs⟩ := List.forall_mem_cons.mp hsegs
    have hrest : splitFrom [] (seg ++ segs.flatMap fun seg => slash :: seg) = seg :: segs := by
      rw [splitFrom_append hslash, List.nil_append, ih hsegs, if_neg hne]
    rw [List.flatMap_cons, List.cons_append, splitFrom, if_pos rfl, hrest]

/-- The router reads the segments back. -/
theorem requestSegs_sampleRequest {segs : List Bytes} (hsegs : ∀ seg ∈ segs, PathSegment seg)
    (v : Verb) : requestSegs (sampleRequest v segs) = segs := by
  have hquery : 63 ∉ segs.flatMap fun seg => slash :: seg := by
    simp only [List.mem_flatMap, List.mem_cons, not_exists, not_and, not_or]
    exact fun seg hseg => ⟨by decide, (hsegs seg hseg).2.2⟩
  have huri : (sampleRequest v segs).uri.takeWhile (· ≠ 63) = (sampleRequest v segs).uri :=
    List.takeWhile_eq_self_iff.mpr fun c hc => by
      simpa using fun h : c = 63 => hquery (h ▸ hc)
  rw [requestSegs, requestPath, huri, splitPath_normalizePath]
  exact (splitFrom_flatMap hsegs []).trans (if_pos rfl)

theorem methodToMask_verb (v : Verb) : methodToMask v.method ≠ 0 := by cases v <;> decide

/-- Some segment is in no route. -/
theorem exists_fresh (regs : List (Registration H)) :
    ∃ fresh, PathSegment fresh ∧ ∀ reg ∈ regs, fresh ∉ reg.segs := by
  have hinj : Function.Injective fun n => List.replicate (n + 1) (97 : UInt8) := fun m n h => by
    simpa using congrArg List.length h
  obtain ⟨n, hn⟩ := Infinite.exists_notMem_finset
    ((regs.flatMap Registration.segs).toFinset.preimage _ hinj.injOn)
  refine ⟨List.replicate (n + 1) 97, ⟨by simp, ?_, ?_⟩, fun reg hreg hmem => hn ?_⟩
  · exact fun h => absurd (List.eq_of_mem_replicate h) (by decide)
  · exact fun h => absurd (List.eq_of_mem_replicate h) (by decide)
  · simpa using ⟨reg, hreg, hmem⟩

theorem mem_of_mem_splitFrom {piece path seg : Bytes} {c : UInt8}
    (h : seg ∈ splitFrom piece path) (hc : c ∈ seg) : c ∈ piece ∨ c ∈ path := by
  fun_induction splitFrom piece path <;> grind

/-- The segments of a path without a question mark can stand in a URI. -/
theorem pathSegment_of_mem {reg : Registration H} (hquery : 63 ∉ reg.path) {seg : Bytes}
    (hseg : seg ∈ reg.segs) : PathSegment seg := by
  have hsplit : reg.segs = splitPath reg.path := splitPath_normalizePath reg.path
  have hmem : seg ∈ splitFrom [] reg.path := by rwa [hsplit, splitPath] at hseg
  exact ⟨ne_nil_of_mem_splitFrom hmem, not_mem_of_mem_splitFrom List.not_mem_nil hmem,
    fun h => hquery ((mem_of_mem_splitFrom hmem h).resolve_left List.not_mem_nil)⟩

/-! ## The walk on a sample -/

theorem ofBytes_eq_literal {seg text : Bytes} (h : Segment.ofBytes seg = .literal text) :
    seg = text := by
  unfold Segment.ofBytes at h
  split at h <;> simp_all

theorem matches_sampleSegs (fresh : Bytes) (p : Pattern) : p.Matches (sampleSegs fresh p) := by
  induction p with
  | nil => trivial
  | cons k p ih =>
    refine ⟨?_, ih⟩
    cases k with
    | literal text => rfl
    | param name => trivial

theorem mem_continuations {regs : List (Registration H)} {p : Pattern} {k : Segment} :
    k ∈ continuations regs p ↔
      ∃ reg ∈ regs, ¬ reg.isStatic ∧ Trie.nextLabel p reg.pattern = some k := by
  simp [continuations, and_assoc]

theorem literal_of_mem_continuations {regs : List (Registration H)} {p : Pattern} {text : Bytes}
    (h : .literal text ∈ continuations regs p) : ∃ reg ∈ regs, text ∈ reg.segs := by
  obtain ⟨reg, hreg, -, hnext⟩ := mem_continuations.mp h
  have hmem : Segment.literal text ∈ reg.pattern :=
    (Trie.nextLabel_eq_some hnext).subset (by simp)
  obtain ⟨seg, hseg, hlit⟩ := List.mem_map.mp hmem
  exact ⟨reg, hreg, ofBytes_eq_literal hlit ▸ hseg⟩

section sample

variable {regs : List (Registration H)} {fresh : Bytes}
  (hfresh : ∀ reg ∈ regs, fresh ∉ reg.segs)
include hfresh

theorem preferred_fresh (p : Pattern) : preferred (continuations regs p) fresh =
    (continuations regs p).find? Segment.isParam := by
  refine if_neg fun h => ?_
  obtain ⟨reg, hreg, hseg⟩ := literal_of_mem_continuations h
  exact hfresh reg hreg hseg

/-- A segment of the sample leads on along the route, when its parameters are the first. -/
theorem preferred_sample {p : Pattern} {k : Segment} (hk : k ∈ continuations regs p)
    (hfirst : k.isParam → (continuations regs p).find? Segment.isParam = some k) :
    preferred (continuations regs p) (k.sample fresh) = some k := by
  cases k with
  | literal text => exact if_pos hk
  | param name => exact (preferred_fresh hfresh p).trans (hfirst rfl)

end sample

theorem greedy_sampleSegs {next : Pattern → List Segment} {fresh : Bytes} {p q : Pattern}
    (h : ∀ before k after, q = before ++ k :: after →
      preferred (next (p ++ before)) (k.sample fresh) = some k) :
    greedy next p (sampleSegs fresh q) = (p ++ q, true) := by
  induction q generalizing p with
  | nil => simp [sampleSegs, greedy]
  | cons k q ih =>
    have hk : preferred (next p) (k.sample fresh) = some k := by
      simpa using h [] k q rfl
    have hrest := ih (p := p ++ [k]) fun before j after hq => by
      simpa using h (k :: before) j after (by rw [hq, List.cons_append])
    rw [sampleSegs, List.map_cons, greedy, hk]
    simpa [sampleSegs] using hrest

theorem prefix_greedy (next : Pattern → List Segment) (p : Pattern) (segs : List Bytes) :
    p <+: (greedy next p segs).1 := by
  induction segs generalizing p with
  | nil => exact List.prefix_rfl
  | cons seg segs ih =>
    rw [greedy]
    split
    next k _ => exact (List.prefix_append p [k]).trans (ih _)
    next => exact List.prefix_rfl

/-- Where a walk has come by, its segment led there. -/
theorem preferred_of_greedy {next : Pattern → List Segment} {p before after : Pattern}
    {k : Segment} {segs : List Bytes} (h : (greedy next p segs).1 = p ++ before ++ k :: after) :
    ∃ seg, segs[before.length]? = some seg ∧ preferred (next (p ++ before)) seg = some k := by
  induction segs generalizing p before with
  | nil =>
    have hlen := congrArg List.length h
    simp [greedy] at hlen
  | cons seg segs ih =>
    rw [greedy] at h
    split at h
    next j hj =>
      have hprefix := prefix_greedy next (p ++ [j]) segs
      rw [h] at hprefix
      cases before with
      | nil =>
        obtain ⟨rest, hrest⟩ := hprefix
        obtain rfl : j = k := by simpa using congrArg (fun l => l[p.length]?) hrest
        exact ⟨seg, rfl, by simpa using hj⟩
      | cons i before =>
        obtain ⟨rest, hrest⟩ := hprefix
        obtain rfl : j = i := by simpa using congrArg (fun l => l[p.length]?) hrest
        have hrest : (greedy next (p ++ [j]) segs).1 = p ++ [j] ++ before ++ k :: after := by
          simpa using h
        obtain ⟨seg', hseg', hpref⟩ := ih hrest
        exact ⟨seg', by simpa using hseg', by simpa using hpref⟩
    next =>
      have hlen := congrArg List.length h
      simp at hlen

/-! ## Samples of a route -/

section route

variable {regs : List (Registration H)} {reg : Registration H} {fresh : Bytes}

theorem pathSegment_sampleSegs (hquery : 63 ∉ reg.path) (hseg : PathSegment fresh) :
    ∀ seg ∈ sampleSegs fresh reg.pattern, PathSegment seg := by
  intro seg hmem
  obtain ⟨k, hk, rfl⟩ := List.mem_map.mp hmem
  cases k with
  | param name => exact hseg
  | literal text =>
    obtain ⟨seg, hsegs, hlit⟩ := List.mem_map.mp hk
    exact pathSegment_of_mem hquery (ofBytes_eq_literal hlit ▸ hsegs)

/-- A route of the trie whose segments are all literal has them in its samples. -/
theorem sampleSegs_of_literals {segs : List Bytes}
    (h : ∀ k ∈ segs.map Segment.ofBytes, ¬ k.isParam) :
    sampleSegs fresh (segs.map Segment.ofBytes) = segs := by
  rw [sampleSegs, List.map_map, List.map_congr_left, List.map_id]
  intro seg hseg
  have hk := h _ (List.mem_map_of_mem hseg)
  cases hlit : Segment.ofBytes seg with
  | param name => simp [hlit, Segment.isParam] at hk
  | literal text => rw [Function.comp, hlit, Segment.sample, id, ofBytes_eq_literal hlit]

variable (hs : ¬ reg.isStatic) (hquery : 63 ∉ reg.path) (hseg : PathSegment fresh)
  (hfresh : ∀ r ∈ regs, fresh ∉ r.segs)
include hs hquery hseg hfresh

/-- No static route is in the way of a sample. -/
theorem not_hasStatic_sample :
    ¬ HasStatic regs (sampleRequest reg.verb (sampleSegs fresh reg.pattern)) := by
  rintro ⟨r, hr, hrs, hnorm⟩
  have hsegs : r.segs = sampleSegs fresh reg.pattern := by
    rw [← requestSegs_sampleRequest (pathSegment_sampleSegs hquery hseg) reg.verb, requestSegs,
      ← hnorm]
    rfl
  by_cases hparam : ∃ name, Segment.param name ∈ reg.pattern
  · obtain ⟨name, hname⟩ := hparam
    refine hfresh r hr ?_
    rw [hsegs]
    exact List.mem_map.mpr ⟨_, hname, rfl⟩
  · have hliterals : ∀ k ∈ reg.pattern, ¬ k.isParam := fun k hk hp => by
      cases k with
      | literal text => simp [Segment.isParam] at hp
      | param name => exact hparam ⟨name, hk⟩
    have hsame : r.segs = reg.segs := hsegs.trans (sampleSegs_of_literals hliterals)
    rw [Registration.isStatic, hsame] at hrs
    exact hs hrs

/-- The handlers of the route that the walk of a sample ends at. -/
theorem onRequest_sample (hreg : reg ∈ regs) :
    (build regs).onRequest (sampleRequest reg.verb (sampleSegs fresh reg.pattern)) =
      let req := sampleRequest reg.verb (sampleSegs fresh reg.pattern)
      match latest (TrieAt (walked regs req).1 (methodIndex reg.method)) regs with
      | some h => [.invoke h (req.setParams
          ((build regs).root.matchNode (methodToMask reg.method) (requestSegs req) ∅).2)]
      | none => [] := by
  refine onRequest_of_match (methodToMask_verb reg.verb)
    (not_hasStatic_sample hs hquery hseg hfresh) ⟨reg, hreg, hs, rfl, ?_⟩
  rw [requestSegs_sampleRequest (pathSegment_sampleSegs hquery hseg)]
  exact matches_sampleSegs fresh reg.pattern

/-- The walk of a sample ends at its route, when the route's parameters are the first. -/
theorem walked_sample (hreg : reg ∈ regs) (hfirst : ∀ p name,
      Trie.nextLabel p reg.pattern = some (.param name) →
        (continuations regs p).find? Segment.isParam = some (.param name)) :
    walked regs (sampleRequest reg.verb (sampleSegs fresh reg.pattern)) = (reg.pattern, true) := by
  rw [walked, requestSegs_sampleRequest (pathSegment_sampleSegs hquery hseg)]
  refine greedy_sampleSegs fun before k after hpattern => ?_
  have hnext : Trie.nextLabel before reg.pattern = some k := by
    rw [hpattern]
    exact Trie.nextLabel_append before k after
  refine preferred_sample hfresh (mem_continuations.mpr ⟨reg, hreg, hs, hnext⟩) fun hparam => ?_
  cases k with
  | literal text => simp [Segment.isParam] at hparam
  | param name => exact hfirst before name hnext

/-- The handler that a sample is given to belongs to the pattern where its walk ends. -/
theorem pattern_of_onRequest_sample (hreg : reg ∈ regs) {h : H} {given : HttpRequest}
    (hcall : (build regs).onRequest (sampleRequest reg.verb (sampleSegs fresh reg.pattern)) =
      [.invoke h given]) :
    ∃ r ∈ regs, r.handler = h ∧
      r.pattern = (walked regs (sampleRequest reg.verb (sampleSegs fresh reg.pattern))).1 := by
  rw [onRequest_sample hs hquery hseg hfresh hreg] at hcall
  dsimp only at hcall
  split at hcall
  next h' hl =>
    obtain ⟨rfl, -⟩ : h' = h ∧ _ := by simpa using hcall
    obtain ⟨before, r, after, rfl, htrie, hh, -⟩ := latest_eq_some hl
    exact ⟨r, by simp, hh, htrie.2.1⟩
  next => simp at hcall

/-- A sample whose walk ends at its route is given to a handler. -/
theorem exists_onRequest_sample (hreg : reg ∈ regs)
    (hwalk : (walked regs (sampleRequest reg.verb (sampleSegs fresh reg.pattern))).1 =
      reg.pattern) :
    ∃ h given, latest (TrieAt reg.pattern (methodIndex reg.method)) regs = some h ∧
      (build regs).onRequest (sampleRequest reg.verb (sampleSegs fresh reg.pattern)) =
        [.invoke h given] := by
  have htrie : TrieAt reg.pattern (methodIndex reg.method) reg := ⟨hs, rfl, rfl⟩
  obtain ⟨h, hl⟩ := Option.isSome_iff_exists.mp (latest_isSome.mpr ⟨reg, hreg, htrie⟩)
  rw [onRequest_sample hs hquery hseg hfresh hreg]
  dsimp only
  rw [hwalk, hl]
  exact ⟨h, _, rfl, rfl⟩

omit hfresh in
/-- The last registration of a slot is the one that is called for its sample. -/
theorem onRequest_sample_last {before : List (Registration H)}
    (hfresh : ∀ r ∈ regs, fresh ∉ r.segs)
    (hnames : ∀ p a b, .param a ∈ continuations regs p → .param b ∈ continuations regs p → a = b)
    (hperm : (before ++ [reg]).Perm regs) :
    ∃ given, (build (before ++ [reg])).onRequest
      (sampleRequest reg.verb (sampleSegs fresh reg.pattern)) = [.invoke reg.handler given] := by
  have hfresh' : ∀ r ∈ before ++ [reg], fresh ∉ r.segs := fun r hr =>
    hfresh r (hperm.mem_iff.mp hr)
  have hreg : reg ∈ before ++ [reg] := by simp
  have hwalk := walked_sample hs hquery hseg hfresh' hreg fun p name hnext => by
    rw [find?_isParam_perm hperm (hnames p)]
    exact find?_isParam (hnames p)
      (mem_continuations.mpr ⟨reg, hperm.mem_iff.mp hreg, hs, hnext⟩)
  obtain ⟨h, given, hl, hcall⟩ := exists_onRequest_sample hs hquery hseg hfresh' hreg
    (congrArg Prod.fst hwalk)
  have htrie : TrieAt reg.pattern (methodIndex reg.method) reg := ⟨hs, rfl, rfl⟩
  rw [latest_concat, if_pos htrie] at hl
  obtain rfl := Option.some.inj hl
  exact ⟨given, hcall⟩

end route

theorem requestPath_of_path {reg : Registration H} (m : HttpMethod) (hquery : 63 ∉ reg.path) :
    requestPath { method := m, uri := reg.path } = reg.norm := by
  have huri : reg.path.takeWhile (· ≠ 63) = reg.path :=
    List.takeWhile_eq_self_iff.mpr fun c hc => by simpa using fun h : c = 63 => hquery (h ▸ hc)
  exact congrArg normalizePath huri

/-- The last registration of a static route is the one that is called. -/
theorem onRequest_static_last {before : List (Registration H)} {reg : Registration H}
    {req : HttpRequest} (hs : reg.isStatic) (hmethod : req.method = reg.method)
    (hpath : requestPath req = reg.norm) :
    (build (before ++ [reg])).onRequest req = [.invoke reg.handler req] := by
  have hmask : methodToMask req.method ≠ 0 := hmethod ▸ methodToMask_verb reg.verb
  have hat : StaticAt (requestPath req) (methodIndex req.method) reg := by
    rw [hpath, hmethod]
    exact ⟨hs, rfl, rfl⟩
  rw [onRequest_of_static hmask ⟨reg, by simp, hs, hpath.symm⟩, latest_concat, if_pos hat]

/-! ## Where the order shows -/

/-- The router does the same, whatever the order of its registrations. -/
def OrderIrrelevant (regs : List (Registration H)) : Prop :=
  ∀ regs', regs'.Perm regs → ∀ req, (build regs').onRequest req = (build regs).onRequest req

section irrelevant

variable {regs : List (Registration H)} (h : OrderIrrelevant regs)
  (hhandlers : (regs.map Registration.handler).Nodup) (hquery : ∀ reg ∈ regs, 63 ∉ reg.path)
include h hhandlers hquery

/-- Of two parameters behind one path, the one that is registered first hides the other. -/
theorem OrderIrrelevant.names {p : Pattern} {a b : Bytes} (ha : .param a ∈ continuations regs p)
    (hb : .param b ∈ continuations regs p) : a = b := by
  obtain ⟨reg, hreg, hs, hnext⟩ := mem_continuations.mp ha
  obtain ⟨reg', hreg', hs', hnext'⟩ := mem_continuations.mp hb
  obtain ⟨fresh, hseg, hfresh⟩ := exists_fresh regs
  -- the two orders, and a request for the route of `a`
  obtain ⟨before, after, hregs⟩ := List.append_of_mem hreg
  obtain ⟨before', after', hregs'⟩ := List.append_of_mem hreg'
  have hperm : (reg :: (before ++ after)).Perm regs := hregs ▸ List.perm_middle.symm
  have hperm' : (reg' :: (before' ++ after')).Perm regs := hregs' ▸ List.perm_middle.symm
  have hfirst : ∀ p name, Trie.nextLabel p reg.pattern = some (.param name) →
      (continuations (reg :: (before ++ after)) p).find? Segment.isParam = some (.param name) :=
    fun p name hname => by simp [continuations, hs, hname, Segment.isParam]
  have hhead : (continuations (reg' :: (before' ++ after')) p).find? Segment.isParam =
      some (.param b) := by
    simp [continuations, hs', hnext', Segment.isParam]
  have hwalk := walked_sample hs (hquery reg hreg) hseg
    (fun r hr => hfresh r (hperm.mem_iff.mp hr)) List.mem_cons_self hfirst
  obtain ⟨handler, given, -, hcall⟩ := exists_onRequest_sample hs (hquery reg hreg) hseg
    (fun r hr => hfresh r (hperm.mem_iff.mp hr)) List.mem_cons_self (congrArg Prod.fst hwalk)
  have hcall' := (h _ hperm' _).trans ((h _ hperm _).symm.trans hcall)
  -- one handler is called in both, so both walks end at its pattern
  obtain ⟨r, hr, rfl, hpattern⟩ := pattern_of_onRequest_sample hs (hquery reg hreg) hseg
    (fun r hr => hfresh r (hperm.mem_iff.mp hr)) List.mem_cons_self hcall
  obtain ⟨r', hr', hsame, hpattern'⟩ := pattern_of_onRequest_sample hs (hquery reg hreg) hseg
    (fun r hr => hfresh r (hperm'.mem_iff.mp hr)) (hperm'.mem_iff.mpr hreg) hcall'
  obtain rfl : r' = r := List.inj_on_of_nodup_map hhandlers (hperm'.mem_iff.mp hr')
    (hperm.mem_iff.mp hr) hsame
  rw [hwalk] at hpattern
  rw [hpattern] at hpattern'
  obtain ⟨rest, hrest⟩ := Trie.nextLabel_eq_some hnext
  -- but at `p` the second walk goes on with `b`
  rw [walked, requestSegs_sampleRequest (pathSegment_sampleSegs (hquery reg hreg) hseg)]
    at hpattern'
  have hcame : (greedy (continuations (reg' :: (before' ++ after'))) []
      (sampleSegs fresh reg.pattern)).1 = [] ++ p ++ .param a :: rest := by
    rw [← hpattern', ← hrest]
    simp
  obtain ⟨seg, hget, hpref⟩ := preferred_of_greedy hcame
  have hsample : seg = fresh := by
    rw [sampleSegs, ← hrest] at hget
    simpa [Segment.sample, eq_comm] using hget
  rw [List.nil_append, hsample, preferred_fresh (fun r hr => hfresh r (hperm'.mem_iff.mp hr)),
    hhead] at hpref
  simpa [eq_comm] using hpref

/-- Of two registrations of one slot, the later one is called. -/
theorem OrderIrrelevant.slots : regs.Pairwise fun reg reg' => ¬ SameSlot reg reg' := by
  rw [List.pairwise_iff_forall_sublist]
  intro reg reg' hsub hsame
  obtain ⟨rest, hrest⟩ := hsub.exists_perm_append
  have hperm : ((rest ++ [reg]) ++ [reg']).Perm regs := by
    rw [List.append_assoc]
    exact List.perm_append_comm.trans hrest.symm
  have hperm' : ((rest ++ [reg']) ++ [reg]).Perm regs := by
    rw [List.append_assoc]
    exact (List.Perm.append_left rest (List.Perm.swap reg reg' [])).trans
      (List.perm_append_comm.trans hrest.symm)
  have hdistinct : reg.handler ≠ reg'.handler := by
    simpa using hhandlers.sublist (hsub.map Registration.handler)
  -- a request that both orders give to their last registration
  suffices hreq : ∃ req, (∃ given, (build ((rest ++ [reg]) ++ [reg'])).onRequest req =
      [.invoke reg'.handler given]) ∧ ∃ given, (build ((rest ++ [reg']) ++ [reg])).onRequest req =
        [.invoke reg.handler given] by
    obtain ⟨req, ⟨given', hcall'⟩, given, hcall⟩ := hreq
    have heq := hcall.symm.trans ((h _ hperm' req).trans ((h _ hperm req).symm.trans hcall'))
    exact hdistinct (by simpa using heq : reg.handler = reg'.handler ∧ _).1
  have hreg : reg ∈ regs := hsub.subset (by simp)
  obtain ⟨hverb, hstatic, hkey⟩ := hsame
  have hmethod : reg.method = reg'.method := congrArg Verb.method hverb
  by_cases hs : reg.isStatic
  · rw [if_pos hs] at hkey
    have hpath := requestPath_of_path reg.method (hquery reg hreg)
    exact ⟨{ method := reg.method, uri := reg.path },
      ⟨_, onRequest_static_last (hstatic.mp hs) hmethod (hpath.trans hkey)⟩,
      _, onRequest_static_last hs rfl hpath⟩
  · rw [if_neg hs] at hkey
    obtain ⟨fresh, hseg, hfresh⟩ := exists_fresh regs
    have hnames := fun p a b ha hb => h.names hhandlers hquery (p := p) (a := a) (b := b) ha hb
    refine ⟨sampleRequest reg.verb (sampleSegs fresh reg.pattern), ?_, ?_⟩
    · rw [hverb, hkey]
      exact onRequest_sample_last (hs ∘ hstatic.mpr) (hquery reg' (hsub.subset (by simp))) hseg
        hfresh hnames hperm
    · exact onRequest_sample_last hs (hquery reg hreg) hseg hfresh hnames hperm'

end irrelevant

/-- **The order of registration** makes no difference to any request exactly when no two
registrations have one slot and no two name one segment differently. -/
theorem orderIrrelevant_iff {regs : List (Registration H)}
    (hhandlers : (regs.map Registration.handler).Nodup) (hquery : ∀ reg ∈ regs, 63 ∉ reg.path) :
    OrderIrrelevant regs ↔ Unambiguous regs := by
  constructor
  · intro h
    exact ⟨h.slots hhandlers hquery, fun p a b => h.names hhandlers hquery⟩
  · intro h regs' hperm req
    exact h.onRequest_perm hperm req

/-- `GET /:a` is no longer called when `GET /:b/x` is registered first. -/
theorem orderIrrelevant_iff_hidden :
    ¬ OrderIrrelevant [(⟨.get, ascii "/:a", 1⟩ : Registration ℕ), ⟨.get, ascii "/:b/x", 2⟩] := by
  rw [orderIrrelevant_iff (by decide) (by decide +kernel)]
  intro h
  exact absurd (h.names [] (ascii "a") (ascii "b") (by decide +kernel) (by decide +kernel))
    (by decide +kernel)

end Router

end XNetty
