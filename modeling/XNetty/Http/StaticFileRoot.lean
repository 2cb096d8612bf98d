import XNetty.Http.StaticFile

/-!
# Files outside the document root

What a request's path leads to is served if it is in the document root. For a directory the handler
then opens `index.html` in it, wherever that leads.

## Main definitions

* `StaticFileHandler.StaysInside` — what is opened is in the document root.
* `StaticFileHandler.IndexInside` — the index files that a path may lead to are.
* `StaticFileHandler.staysInside_iff` — the first is so exactly when the second is.
-/

namespace XNetty

open FileTree FileSystem

namespace StaticFileHandler

variable {fs : FileSystem} (h : StaticFileHandler)

/-- The text of the place begins with that of the root. -/
def Inside (q : Path) : Prop := h.realDocRoot <+: render q

/-- What is there is opened: it is not too large, and may be read. -/
def Opens (fs : FileSystem) (q : Path) : Prop :=
  (fs.statOf q).size ≤ h.maxFileSize ∧ fs.readable q = true

/-- **What is expected of the handler.** A file that it opens is in the root. -/
def StaysInside (fs : FileSystem) (req : HttpRequest) : Prop :=
  ∀ f ∈ (h.onRequest fs.system req).2, h.Inside f.path

/-! ## What is opened -/

variable {h}

theorem mem_serve_iff {filePath : Bytes} {q : Path} (hq : fs.Resolves filePath q) {f : OpenFile} :
    f ∈ (h.serve fs.system filePath (fs.statOf q)).2 ↔
      h.Opens fs q ∧ f = ⟨q, fs.contentOf q⟩ := by
  have hopen : fs.system.openFile filePath =
      if fs.readable q then some ⟨q, fs.contentOf q⟩ else none := by
    simp only [system, resolve_eq_some.mpr hq, Option.filter]
    split <;> rfl
  unfold serve Opens
  by_cases hlarge : (fs.statOf q).size > h.maxFileSize
  · rw [if_pos hlarge]
    simp [not_le.mpr hlarge]
  · rw [if_neg hlarge, hopen]
    by_cases hread : fs.readable q = true
    · simp [hread, not_lt.mp hlarge, eq_comm]
    · simp [hread]

/-- **Which file is opened.** -/
theorem staysInside_iff_of_resolves (req : HttpRequest) :
    h.StaysInside fs req ↔
      ∀ d, fs.Resolves (h.sanitizePath fs.system req.path) d →
        (¬ fs.root.IsDir d → h.Opens fs d → h.Inside d) ∧
        (fs.root.IsDir d → ∀ q, fs.Resolves (h.sanitizePath fs.system req.path ++ indexHtml) q →
          h.Opens fs q → h.Inside q) := by
  have hstat (text : Bytes) : fs.system.stat text = (fs.resolve text).map fs.statOf := rfl
  unfold StaysInside onRequest
  dsimp only
  generalize h.sanitizePath fs.system req.path = filePath
  rw [hstat]
  cases hd : fs.resolve filePath with
  | none => simp [resolve_eq_none.mp hd]
  | some d =>
    have hd' := resolve_eq_some.mp hd
    have hunique (d' : Path) : fs.Resolves filePath d' ↔ d' = d :=
      ⟨fun h => h.unique hd', fun h => h ▸ hd'⟩
    simp only [Option.map_some, hunique, forall_eq, ← isDir_iff_statOf hd'.exists]
    by_cases hdir : (fs.statOf d).isDir = true
    · simp only [hdir, if_true, not_true_eq_false, false_implies, true_and, forall_const, hstat]
      cases hq : fs.resolve (filePath ++ indexHtml) with
      | none => simp [resolve_eq_none.mp hq]
      | some q =>
        have hq' := resolve_eq_some.mp hq
        simp only [Option.map_some, mem_serve_iff hq', and_imp]
        constructor
        · intro hall q' hres hopens
          obtain rfl := hres.unique hq'
          exact hall _ hopens rfl
        · rintro hall _ hopens rfl
          exact hall q hq' hopens
    · simp only [hdir, if_false, not_false_eq_true, forall_const, false_implies, and_true,
        Bool.false_eq_true, mem_serve_iff hd', and_imp]
      constructor
      · intro hall hopens
        exact hall _ hopens rfl
      · rintro hall _ hopens rfl
        exact hall hopens

theorem ordinary_indexHtml : Ordinary indexHtml := by decide +kernel

/-- A path that `realpath` does not resolve is not resolved either from the directory that is in
front of its last slash. -/
theorem not_resolves_parent {raw parent base : Bytes} {p : Path}
    (hraw : ∀ q, ¬ fs.Resolves raw q) (hsplit : raw = parent ++ FileTree.slash :: base)
    (hparent : fs.Resolves parent p) (q : Path) :
    ¬ fs.Resolves (render p ++ FileTree.slash :: base) q := by
  intro hq
  have hne : parent ≠ [] := by
    rintro rfl
    exact hparent.1 rfl
  subst hsplit
  by_cases hnul : 0 ∈ parent
  · exact hraw p ((resolves_append_of_mem hnul _).mpr hparent)
  · exact hraw q ((resolves_join hnul hne base).mpr ⟨p, hparent, (hparent.behind base).mp hq⟩)

/-- A path into the root is made into the text of where it leads. -/
theorem sanitizePath_of_resolves {uri : Bytes} (huri : uri ≠ []) {d : Path}
    (hd : fs.Resolves (h.rawPath uri) d) (hin : h.realDocRoot <+: withSlash (render d)) :
    h.sanitizePath fs.system uri =
      render d ++ if (fs.statOf d).isDir then [FileTree.slash] else [] := by
  have hreal : fs.system.realpath (h.rawPath uri) = some (render d) := by
    simp [system, resolve_eq_some.mpr hd]
  have hstat : fs.system.stat (render d) = some (fs.statOf d) := by
    simp [system, resolve_eq_some.mpr hd.render]
  unfold sanitizePath resolved
  rw [if_neg huri, hreal]
  simp only [hin, not_true_eq_false, if_false, hstat, Option.any_some]
  split
  · rfl
  · exact (List.append_nil _).symm

/-- Any other path is made into a text that leads nowhere. -/
theorem not_resolves_sanitizePath {uri : Bytes} (huri : uri ≠ [])
    (hno : ∀ d, fs.Resolves (h.rawPath uri) d → ¬ h.realDocRoot <+: withSlash (render d))
    (q : Path) : ¬ fs.Resolves (h.sanitizePath fs.system uri) q := by
  have hempty : ¬ fs.Resolves [] q := fun h => h.1 rfl
  unfold sanitizePath resolved
  rw [if_neg huri]
  cases hraw : fs.resolve (h.rawPath uri) with
  | some d =>
    have hreal : fs.system.realpath (h.rawPath uri) = some (render d) := by simp [system, hraw]
    rw [hreal]
    simp only [hno d (resolve_eq_some.mp hraw), not_false_eq_true, if_true]
    exact hempty
  | none =>
    have hreal : fs.system.realpath (h.rawPath uri) = none := by simp [system, hraw]
    rw [hreal]
    cases hsplit : lastSlash (h.rawPath uri) with
    | none => exact hempty
    | some s =>
      obtain ⟨parent, base⟩ := s
      cases hparent : fs.resolve parent with
      | none =>
        have hnone : fs.system.realpath parent = none := by simp [system, hparent]
        simp only [Option.bind_some, hnone, Option.map_none]
        exact hempty
      | some p =>
        have hreal : fs.system.realpath parent = some (render p) := by simp [system, hparent]
        have hlost := not_resolves_parent (resolve_eq_none.mp hraw) (lastSlash_eq_some hsplit)
          (resolve_eq_some.mp hparent)
        have hstat : fs.system.stat (render p ++ FileTree.slash :: base) = none := by
          simp [system, resolve_eq_none.mpr hlost]
        simp only [Option.bind_some, hreal, Option.map_some, hstat, Option.any_none,
          Bool.false_eq_true, if_false]
        split
        · exact hempty
        · exact hlost q

/-- **Inside the root** is what is below its directory. -/
theorem inside_iff {m q : Path} (hm : ∀ n ∈ m, Ordinary n) (hq : ∀ n ∈ q, Ordinary n)
    (hroot : h.realDocRoot = withSlash (render m)) (hne : m ≠ q) : h.Inside q ↔ m <+: q := by
  unfold Inside
  rw [hroot, ← withSlash_prefix_iff hm hq]
  by_cases hlast : (render q).getLast? = some FileTree.slash
  · rw [withSlash.eq_def (render q), if_pos hlast]
  · have hclosed : withSlash (render q) = render q ++ [FileTree.slash] := by
      rw [withSlash, if_neg hlast]
    rw [hclosed, List.prefix_concat_iff, ← hclosed]
    refine ⟨.inr, fun hpre => hpre.resolve_left fun hsame => hne ?_⟩
    -- the same text would be that of the same place
    have hmq := (withSlash_prefix_iff hm hq).mp (hsame ▸ List.prefix_rfl)
    have hqm := (withSlash_prefix_iff hq hm).mp (hsame ▸ List.prefix_rfl)
    exact hmq.eq_of_length_le hqm.length_le

/-- A file that is found in the root is in it. -/
theorem inside_of_file {docRoot uri : Bytes} {maxFileSize : ℕ}
    (hh : h = new fs.system docRoot maxFileSize) (hnul : 0 ∉ h.docRoot) {d : Path}
    (hd : fs.Resolves (h.rawPath uri) d) (hfile : ¬ fs.root.IsDir d)
    (hin : h.realDocRoot <+: withSlash (render d)) : h.Inside d := by
  by_cases hempty : docRoot = []
  · -- without a document root everything is in it
    have hnowhere : fs.resolve [] = none := resolve_eq_none.mpr fun q h => h.1 rfl
    have hnone : h.realDocRoot = [] := by
      subst hh hempty
      simp [new, system, hnowhere]
    rw [Inside, hnone]
    exact List.nil_prefix
  · obtain ⟨s, hs⟩ : ∃ s, h.docRoot = s ++ [FileTree.slash] := by
      subst hh
      simp only [new, if_neg hempty, withSlash]
      split
      next hlast =>
        obtain ⟨s, hs⟩ := List.getLast?_eq_some_iff.mp hlast
        exact ⟨s, hs⟩
      next => exact ⟨docRoot, rfl⟩
    have hraw : ∃ x, h.rawPath uri = s ++ FileTree.slash :: x := by
      rw [rawPath, hs, List.append_assoc]
      exact ⟨_, rfl⟩
    obtain ⟨x, hx⟩ := hraw
    rw [hx] at hd
    have hnul' : 0 ∉ s := fun hmem => hnul (hs ▸ List.mem_append_left _ hmem)
    obtain ⟨m, hm, hdir⟩ := hd.front hnul'
    have hreal : h.realDocRoot = withSlash (render m) := by
      have hresolved : fs.system.realpath h.docRoot = some (render m) := by
        rw [hs]
        simp [system, resolve_eq_some.mpr hm]
      have hnew : h.realDocRoot = (fs.system.realpath h.docRoot).elim h.docRoot withSlash := by
        rw [hh]
        rfl
      rw [hnew, hresolved]
      rfl
    have hne : m ≠ d := fun heq => hfile (heq ▸ hdir)
    rw [hreal, withSlash_prefix_iff hm.ordinary hd.ordinary] at hin
    exact (inside_iff hm.ordinary hd.ordinary hreal hne).mpr hin

variable (fs) in
/-- **The index files that a path may lead to are in the root**: that of a directory in the root,
and those of the empty path. -/
def IndexInside (h : StaticFileHandler) (uri : Bytes) : Prop :=
  if uri = [] then
    ∀ d, fs.Resolves (h.docRoot ++ indexHtml) d →
      (¬ fs.root.IsDir d → h.Opens fs d → h.Inside d) ∧
      (fs.root.IsDir d → ∀ q, fs.Resolves (h.docRoot ++ indexHtml ++ indexHtml) q →
        h.Opens fs q → h.Inside q)
  else
    ∀ d, fs.Resolves (h.rawPath uri) d → h.realDocRoot <+: withSlash (render d) →
      -- a root with a null byte in its text may be a file
      (0 ∈ h.docRoot → ¬ fs.root.IsDir d → h.Opens fs d → h.Inside d) ∧
      (fs.root.IsDir d → ∀ q, Walks fs.root d [indexHtml] q → h.Opens fs q → h.Inside q)

/-- **The handler stays in its root** exactly when the index files do that it may be led to. -/
theorem staysInside_iff (fs : FileSystem) (docRoot : Bytes) (maxFileSize : ℕ) (req : HttpRequest) :
    (new fs.system docRoot maxFileSize).StaysInside fs req ↔
      IndexInside fs (new fs.system docRoot maxFileSize) req.path := by
  generalize hh : new fs.system docRoot maxFileSize = h
  rw [staysInside_iff_of_resolves, IndexInside]
  by_cases huri : req.path = []
  · rw [if_pos huri, sanitizePath, if_pos huri]
  · rw [if_neg huri]
    by_cases hex : ∃ d, fs.Resolves (h.rawPath req.path) d ∧ h.realDocRoot <+: withSlash (render d)
    · obtain ⟨d, hd, hin⟩ := hex
      have hraw (d' : Path) : fs.Resolves (h.rawPath req.path) d' ↔ d' = d :=
        ⟨fun hd' => hd'.unique hd, fun heq => heq ▸ hd⟩
      rw [sanitizePath_of_resolves huri hd hin]
      simp only [hraw, forall_eq]
      by_cases hdir : fs.root.IsDir d
      · have htext (d' : Path) : fs.Resolves (render d ++ [FileTree.slash]) d' ↔ d' = d := by
          have hstay : Walks fs.root d [[]] d := .stay (.inl rfl) hdir (.done d)
          rw [hd.behind []]
          exact ⟨fun hwalk => hwalk.unique hstay, fun heq => heq ▸ hstay⟩
        have hindex (q : Path) : fs.Resolves (render d ++ [FileTree.slash] ++ indexHtml) q ↔
            Walks fs.root d [indexHtml] q := by
          rw [List.append_assoc, ← components_of_ordinary ordinary_indexHtml]
          exact hd.behind indexHtml
        rw [(isDir_iff_statOf hd.exists).mpr hdir, if_pos rfl]
        simp only [htext, forall_eq, hindex]
        simp [hdir, hin]
      · have hstat : (fs.statOf d).isDir ≠ true := mt (isDir_iff_statOf hd.exists).mp hdir
        have htext (d' : Path) : fs.Resolves (render d) d' ↔ d' = d :=
          ⟨fun hd' => hd'.unique hd.render, fun heq => heq ▸ hd.render⟩
        rw [if_neg hstat, List.append_nil]
        simp only [htext, forall_eq]
        by_cases hnul : 0 ∈ h.docRoot
        · simp [hdir, hin, hnul]
        · have hinside := inside_of_file hh.symm hnul hd hdir hin
          simp [hdir, hnul, hinside]
    · have hno (d : Path) (hd : fs.Resolves (h.rawPath req.path) d) :
          ¬ h.realDocRoot <+: withSlash (render d) := fun hin => hex ⟨d, hd, hin⟩
      refine iff_of_true ?_ ?_
      · intro d hd
        exact absurd hd (not_resolves_sanitizePath huri hno d)
      · intro d hd hin
        exact absurd hin (hno d hd)

section linked

def etc : Name := ascii "etc"
def passwd : Name := ascii "passwd"
def srv : Name := ascii "srv"

/-- A document root whose `index.html` is a link to a file elsewhere. -/
def linkedRoot : Node :=
  .dir [(srv, .dir [(indexHtml, .link (ascii "/etc/passwd"))]),
    (etc, .dir [(passwd, .file (ascii "root:x:0:0"))])]

theorem linkedRoot_dir : linkedRoot.IsDir [] := ⟨_, rfl⟩

def linked : FileSystem where
  root := linkedRoot
  cwd := []
  dirSize _ := 4096
  readable _ := true
  root_dir := linkedRoot_dir
  cwd_dir := linkedRoot_dir
  cwd_ordinary := List.forall_mem_nil _

theorem isDir_srv : linkedRoot.IsDir [srv] := ⟨_, rfl⟩

theorem walks_passwd : Walks linkedRoot [srv] [indexHtml] [etc, passwd] := by
  have hpasswd : linkedRoot.get ([etc] ++ [passwd]) = some (.file (ascii "root:x:0:0")) := rfl
  have hetc : linkedRoot.get ([] ++ [etc]) =
      some (.dir [(passwd, .file (ascii "root:x:0:0"))]) := rfl
  have hlink : linkedRoot.get ([srv] ++ [indexHtml]) = some (.link (ascii "/etc/passwd")) := rfl
  refine .follow ordinary_indexHtml hlink (by decide +kernel) ?_
  have hstart : components (ascii "/etc/passwd") ++ [] = [[], etc, passwd] := by decide +kernel
  have horigin : origin [srv] (ascii "/etc/passwd") = [] := by decide +kernel
  rw [hstart, horigin]
  refine .stay (.inl rfl) linkedRoot_dir (.enter (by decide +kernel) hetc id ?_)
  exact .enter (by decide +kernel) hpasswd id (.done _)

theorem resolves_srv : linked.Resolves (ascii "/srv/") [srv] := by
  refine ⟨by decide +kernel, ?_⟩
  have hstart : components (ascii "/srv/") = [[], srv, []] := by decide +kernel
  have horigin : origin linked.cwd (ascii "/srv/") = [] := by decide +kernel
  have hsrv : linkedRoot.get ([] ++ [srv]) =
      some (.dir [(indexHtml, .link (ascii "/etc/passwd"))]) := rfl
  rw [hstart, horigin]
  refine .stay (.inl rfl) linkedRoot_dir (.enter (by decide +kernel) hsrv id ?_)
  exact .stay (.inl rfl) isDir_srv (.done _)

theorem new_linked : new linked.system (ascii "/srv") =
    ⟨ascii "/srv/", ascii "/srv/", 10 * 1024 * 1024⟩ := by
  have hroot : withSlash (ascii "/srv") = ascii "/srv/" := by decide +kernel
  have hne : ascii "/srv" ≠ [] := by decide +kernel
  have hreal : linked.system.realpath (ascii "/srv/") = some (render [srv]) := by
    simp [system, resolve_eq_some.mpr resolves_srv]
  have htext : withSlash (render [srv]) = ascii "/srv/" := by decide +kernel
  unfold new
  rw [if_neg hne, hroot]
  simp only [hreal, Option.elim_some, htext]

/-- **A file outside the root** is opened as the index file of the root, though not by its name. -/
theorem not_staysInside_linked :
    let h := new linked.system (ascii "/srv")
    linked.system.realpath (ascii "/srv/") = some (ascii "/srv") ∧
    (∀ q, ¬ linked.Resolves (h.sanitizePath linked.system (ascii "/index.html")) q) ∧
    ¬ h.StaysInside linked { path := ascii "/" } := by
  intro h
  have hh : h = ⟨ascii "/srv/", ascii "/srv/", 10 * 1024 * 1024⟩ := new_linked
  have hindex : linked.Resolves (render [srv] ++ FileTree.slash :: indexHtml) [etc, passwd] := by
    rw [resolves_srv.behind, components_of_ordinary ordinary_indexHtml]
    exact walks_passwd
  refine ⟨?_, ?_, ?_⟩
  · have htext : render [srv] = ascii "/srv" := by decide +kernel
    simp [system, resolve_eq_some.mpr resolves_srv, htext]
  · apply not_resolves_sanitizePath (by decide +kernel)
    intro d hd
    have hraw : h.rawPath (ascii "/index.html") = render [srv] ++ FileTree.slash :: indexHtml := by
      rw [hh]
      decide +kernel
    rw [hraw] at hd
    rw [hd.unique hindex, hh]
    decide +kernel
  · have hraw : linked.Resolves (h.rawPath (ascii "/")) [srv] := by
      have hpath : h.rawPath (ascii "/") = ascii "/srv/" := by
        rw [hh]
        decide +kernel
      rw [hpath]
      exact resolves_srv
    have hin : h.realDocRoot <+: withSlash (render [srv]) := by
      rw [hh]
      decide +kernel
    have htext := sanitizePath_of_resolves (by decide +kernel) hraw hin
    rw [(isDir_iff_statOf hraw.exists).mpr isDir_srv, if_pos rfl] at htext
    rw [staysInside_iff_of_resolves, htext]
    intro hall
    have hinside := (hall [srv] ((resolves_srv.behind []).mpr
      (.stay (.inl rfl) isDir_srv (.done _)))).2 isDir_srv [etc, passwd] (by
        rw [List.append_assoc]
        exact hindex) ⟨by rw [hh]; decide +kernel, rfl⟩
    rw [Inside, hh] at hinside
    exact absurd hinside (by decide +kernel)

end linked

end StaticFileHandler

end XNetty
