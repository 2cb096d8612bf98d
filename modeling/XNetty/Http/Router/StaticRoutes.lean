import XNetty.Http.Router.Dispatch

/-!
# Static routes by their segments

The hash map is keyed by normalized paths and the trie is searched by segments. For paths that
begin with a slash the two tell the same paths apart, so that a static route is found under
its key exactly where its segments match.

## Main definitions

* `lookup_static_iff` — the hash map as a search by segments.
* `normalizePath_canonical` — what normalization keeps and what it tells apart.
-/

namespace XNetty

theorem Pattern.matches_map_literal_iff {texts segs : List Bytes} :
    Pattern.Matches (texts.map .literal) segs ↔ texts = segs := by
  constructor
  · intro h
    induction texts generalizing segs with
    | nil =>
      cases segs with
      | nil => rfl
      | cons seg segs => exact absurd h id
    | cons text texts ih =>
      cases segs with
      | nil => exact absurd h id
      | cons seg segs =>
        obtain rfl : text = seg := h.1
        rw [ih h.2]
  · rintro rfl
    exact Pattern.matches_literal texts

namespace Router

variable {H : Type*} {regs : List (Registration H)}

/-- A static route is found under its key where its segments match. -/
theorem norm_eq_iff_matches {reg : Registration H} (hs : reg.isStatic)
    (hpath : reg.path.head? = some slash) {path : Bytes} (hslash : path.head? = some slash) :
    reg.norm = normalizePath path ↔ reg.pattern.Matches (splitPath path) := by
  rw [pattern_of_static hs, Pattern.matches_map_literal_iff, Registration.segs,
    Registration.norm, splitPath_normalizePath]
  exact normalizePath_eq_iff hpath hslash

theorem lookup_static_iff (hpaths : ∀ reg ∈ regs, reg.path.head? = some slash) {path : Bytes}
    (hslash : path.head? = some slash) :
    ((build regs).staticRoutes.lookup (normalizePath path)).isSome ↔
      ∃ reg ∈ regs, reg.isStatic ∧ reg.pattern.Matches (splitPath path) := by
  rw [(lookup_build regs _).2]
  constructor
  · rintro ⟨reg, hreg, hs, hnorm⟩
    exact ⟨reg, hreg, hs, (norm_eq_iff_matches hs (hpaths reg hreg) hslash).mp hnorm⟩
  · rintro ⟨reg, hreg, hs, hmatch⟩
    exact ⟨reg, hreg, hs, (norm_eq_iff_matches hs (hpaths reg hreg) hslash).mpr hmatch⟩

/-- **Normalization is canonical**: it does nothing a second time, it keeps the segments, which
are the pieces between slashes that are not empty, and it leaves two paths that begin with a slash
different exactly when their segments are. So the hash map finds a static route where the segments
match. -/
theorem normalizePath_canonical (H : Type*) :
    (∀ p, normalizePath (normalizePath p) = normalizePath p) ∧
    (∀ p, splitPath (normalizePath p) = splitPath p) ∧
    (∀ p, splitPath p = (p.splitOn slash).filter (· ≠ [])) ∧
    (∀ p q : Bytes, p.head? = some slash → q.head? = some slash →
      (normalizePath p = normalizePath q ↔ splitPath p = splitPath q)) ∧
    ∀ regs : List (Registration H), (∀ reg ∈ regs, reg.path.head? = some slash) →
      ∀ path : Bytes, path.head? = some slash →
        (((build regs).staticRoutes.lookup (normalizePath path)).isSome ↔
          ∃ reg ∈ regs, reg.isStatic ∧ reg.pattern.Matches (splitPath path)) :=
  ⟨normalizePath_normalizePath, splitPath_normalizePath, splitPath_eq_filter,
    fun _ _ hp hq => normalizePath_eq_iff hp hq,
    fun _ hpaths _ hslash => lookup_static_iff hpaths hslash⟩

/-- A route with slashes to spare is found for a path with others. -/
theorem normalizePath_canonical_slashes :
    normalizePath (ascii "//a/") = normalizePath (ascii "/a") ∧
      ((build [⟨.get, ascii "/a//b", 1⟩]).staticRoutes.lookup
        (normalizePath (ascii "//a/b/"))).isSome := by
  obtain ⟨-, -, -, hsame, hlookup⟩ := normalizePath_canonical ℕ
  refine ⟨(hsame (ascii "//a/") (ascii "/a") (by decide) (by decide)).mpr (by decide +kernel), ?_⟩
  refine (hlookup [⟨.get, ascii "/a//b", 1⟩] (by decide +kernel) (ascii "//a/b/")
    (by decide)).mpr ⟨⟨.get, ascii "/a//b", 1⟩, List.mem_singleton_self _, by decide +kernel, ?_⟩
  exact ⟨rfl, rfl, trivial⟩

end Router

end XNetty
