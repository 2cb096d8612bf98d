import XNetty.Buffer.ByteBuf

/-!
# Paths

How the router reads a path: repeated and trailing slashes are dropped, and the pieces
between slashes are its segments.

## Main definitions

* `normalizePath`, `splitPath` — the source's two functions.
* `normalizePath_eq` — a normalized path is written from its segments.
-/

namespace XNetty

/-- `'/'`. -/
def slash : UInt8 := 47

/-- `':'`. -/
def colon : UInt8 := 58

/-- `Router::isParamName`, with `std::isalnum` in the C locale. -/
def isParamName (c : UInt8) : Bool :=
  (48 ≤ c ∧ c ≤ 57) ∨ (65 ≤ c ∧ c ≤ 90) ∨ (97 ≤ c ∧ c ≤ 122) ∨ c = 95 ∨ c = 45

/-- The loop of `normalizePath`: a slash behind a slash is left out. -/
def collapse : Bool → Bytes → Bytes
  | _, [] => []
  | lastSlash, c :: cs =>
    if c = slash then
      if lastSlash then collapse true cs else c :: collapse true cs
    else c :: collapse false cs

def normalizePath (path : Bytes) : Bytes :=
  let out := collapse false path
  if out.length > 1 ∧ out.getLast? = some slash then out.dropLast else out

/-- The loop of `splitPath`; `piece` is what has been read of the current segment. -/
def splitFrom (piece : Bytes) : Bytes → List Bytes
  | [] => if piece = [] then [] else [piece]
  | c :: cs =>
    if c = slash then
      if piece = [] then splitFrom [] cs else piece :: splitFrom [] cs
    else splitFrom (piece ++ [c]) cs

def splitPath (path : Bytes) : List Bytes := splitFrom [] path

/-! ## Segments -/

/-- The segments are the pieces between slashes that are not empty. -/
theorem splitFrom_eq_filter {piece : Bytes} (hpiece : slash ∉ piece) (path : Bytes) :
    splitFrom piece path = ((piece ++ path).splitOn slash).filter (· ≠ []) := by
  induction path generalizing piece with
  | nil =>
    rw [List.append_nil, List.splitOn_eq_singleton hpiece, splitFrom]
    split
    next h => simp [h]
    next h => simp [h]
  | cons c path ih =>
    rw [splitFrom]
    by_cases hc : c = slash
    · subst hc
      rw [List.splitOn_append_cons_self_of_not_mem hpiece, if_pos rfl,
        ih (List.not_mem_nil (a := slash)), List.nil_append]
      split
      next h => simp [h]
      next h => simp [h]
    · rw [if_neg hc, ih (by simpa [hpiece] using Ne.symm hc), List.append_assoc,
        List.singleton_append]

theorem splitPath_eq_filter (path : Bytes) :
    splitPath path = (path.splitOn slash).filter (· ≠ []) :=
  splitFrom_eq_filter List.not_mem_nil path

/-- A segment is not empty. -/
theorem ne_nil_of_mem_splitFrom {piece path seg : Bytes} (h : seg ∈ splitFrom piece path) :
    seg ≠ [] := by
  fun_induction splitFrom piece path <;> grind

/-- A segment has no slash in it. -/
theorem not_mem_of_mem_splitFrom {piece path seg : Bytes} (hpiece : slash ∉ piece)
    (h : seg ∈ splitFrom piece path) : slash ∉ seg := by
  fun_induction splitFrom piece path <;> grind

/-- A slash at the end bounds no further segment. -/
theorem splitFrom_concat_slash (piece path : Bytes) :
    splitFrom piece (path ++ [slash]) = splitFrom piece path := by
  fun_induction splitFrom piece path <;> simp_all [splitFrom]

/-- A repeated slash bounds no segment. -/
theorem splitFrom_collapse (lastSlash : Bool) (piece : Bytes)
    (hpiece : lastSlash = true → piece = []) (path : Bytes) :
    splitFrom piece (collapse lastSlash path) = splitFrom piece path := by
  induction path generalizing lastSlash piece with
  | nil => rfl
  | cons c path ih =>
    have hnil := ih true [] fun _ => rfl
    by_cases hc : c = slash
    · cases lastSlash with
      | true => simp [collapse, splitFrom, hc, hpiece rfl, hnil]
      | false => simp [collapse, splitFrom, hc, hnil]
    · have hgrown := ih false (piece ++ [c]) nofun
      simp [collapse, splitFrom, hc, hgrown]

/-- **Normalization keeps the segments.** -/
theorem splitPath_normalizePath (path : Bytes) :
    splitPath (normalizePath path) = splitPath path := by
  have hcollapse : splitPath (collapse false path) = splitPath path :=
    splitFrom_collapse false [] nofun path
  unfold normalizePath
  dsimp only
  split
  next h =>
    obtain ⟨out, hout⟩ := List.getLast?_eq_some_iff.mp h.2
    rw [← hcollapse, hout, List.dropLast_concat]
    exact (splitFrom_concat_slash [] out).symm
  next => exact hcollapse

/-! ## The normalized path -/

/-- What the loop writes behind `piece` are the segments with slashes between them, and a slash at
the end when the path ends in one. -/
theorem append_collapse (piece path : Bytes) :
    let joined := [slash].intercalate (splitFrom piece path)
    piece ++ collapse (piece = []) path = joined ∨
      piece ++ collapse (piece = []) path = joined ++ [slash] ∧ joined ≠ [] := by
  induction path generalizing piece with
  | nil => by_cases h : piece = [] <;> simp [collapse, splitFrom, h]
  | cons c path ih =>
    by_cases hc : c = slash
    · have hnil := ih []
      by_cases hpiece : piece = []
      · simpa [collapse, splitFrom, hc, hpiece] using hnil
      · -- `piece` is a segment, behind which stands a slash.
        simp only [collapse, splitFrom, hc, hpiece, if_true, if_false, decide_false,
          Bool.false_eq_true]
        simp only [List.nil_append, decide_true] at hnil
        cases hsegs : splitFrom [] path with
        | nil =>
          rw [hsegs] at hnil
          have hrest : collapse true path = [] := by simpa using hnil
          simp [hrest, hpiece]
        | cons seg segs =>
          rw [hsegs] at hnil
          rw [List.intercalate_cons_cons]
          rcases hnil with hrest | ⟨hrest, -⟩
          · exact .inl (by simp [hrest])
          · exact .inr (by simp [hrest])
    · have hgrown := ih (piece ++ [c])
      simpa [collapse, splitFrom, hc] using hgrown

/-- Segments end in something else than a slash. -/
theorem getLast?_intercalate_ne {segs : List Bytes} (hne : ∀ seg ∈ segs, seg ≠ [])
    (hslash : ∀ seg ∈ segs, slash ∉ seg) :
    ([slash].intercalate segs).getLast? ≠ some slash := by
  induction segs with
  | nil => simp
  | cons seg segs ih =>
    obtain ⟨hseg, hsegs⟩ := List.forall_mem_cons.mp hne
    obtain ⟨hseg', hsegs'⟩ := List.forall_mem_cons.mp hslash
    cases segs with
    | nil =>
      rw [List.intercalate_singleton]
      exact fun h => hseg' (List.mem_of_getLast? h)
    | cons seg' segs =>
      have hrest : [slash].intercalate (seg' :: segs) ≠ [] := by
        have hseg' := List.forall_mem_cons.mp hsegs
        cases segs <;> simp [List.intercalate_cons_cons, hseg'.1]
      have ih := ih hsegs hsegs'
      rw [List.intercalate_cons_cons, List.getLast?_append_of_ne_nil _ hrest]
      exact ih

/-- The slash at the end is dropped, unless it is all there is. -/
theorem dropSlash_eq {lead joined out : Bytes} (hlead : lead.length ≤ 1)
    (hlast : joined.getLast? ≠ some slash)
    (hout : out = lead ++ joined ∨ out = lead ++ joined ++ [slash] ∧ joined ≠ []) :
    (if out.length > 1 ∧ out.getLast? = some slash then out.dropLast else out) =
      lead ++ joined := by
  rcases hout with rfl | ⟨rfl, hne⟩
  · refine if_neg ?_
    rintro ⟨hlen, hslash⟩
    by_cases hnil : joined = []
    · rw [hnil, List.append_nil] at hlen
      omega
    · rw [List.getLast?_append_of_ne_nil _ hnil] at hslash
      exact hlast hslash
  · have hpos := List.length_pos_of_ne_nil hne
    rw [if_pos ⟨by simp only [List.length_append, List.length_singleton]; omega, by simp⟩,
      List.dropLast_concat]

/-- **A normalized path** is written from its segments: they stand with single slashes between
them, behind a slash when the path begins with one. -/
theorem normalizePath_eq (path : Bytes) :
    normalizePath path =
      (if path.head? = some slash then [slash] else []) ++
        [slash].intercalate (splitPath path) := by
  have hlast : ([slash].intercalate (splitPath path)).getLast? ≠ some slash :=
    getLast?_intercalate_ne (fun _ => ne_nil_of_mem_splitFrom)
      fun _ => not_mem_of_mem_splitFrom List.not_mem_nil
  refine dropSlash_eq (by split <;> simp) hlast ?_
  cases path with
  | nil => exact .inl rfl
  | cons c path =>
    by_cases hc : c = slash
    · have hrest := append_collapse [] path
      simpa [collapse, splitPath, splitFrom, hc] using hrest
    · have hrest := append_collapse [c] path
      simpa [collapse, splitPath, splitFrom, hc] using hrest

/-- Normalization keeps the first character. -/
theorem head?_normalizePath (path : Bytes) : (normalizePath path).head? = path.head? := by
  cases path with
  | nil => rfl
  | cons c path =>
    obtain ⟨out, hout⟩ : ∃ out, collapse false (c :: path) = c :: out := by
      by_cases hc : c = slash <;> simp [collapse, hc]
    unfold normalizePath
    rw [hout]
    dsimp only
    split
    next h =>
      cases out with
      | nil => simp at h
      | cons d out => rfl
    next => rfl

theorem normalizePath_normalizePath (path : Bytes) :
    normalizePath (normalizePath path) = normalizePath path := by
  rw [normalizePath_eq (normalizePath path), head?_normalizePath, splitPath_normalizePath,
    ← normalizePath_eq]

/-- Of paths that begin with a slash, the normalized path says what the segments are, and no
more. -/
theorem normalizePath_eq_iff {p q : Bytes} (hp : p.head? = some slash)
    (hq : q.head? = some slash) :
    normalizePath p = normalizePath q ↔ splitPath p = splitPath q := by
  constructor
  · intro h
    rw [← splitPath_normalizePath p, h, splitPath_normalizePath]
  · intro h
    rw [normalizePath_eq, normalizePath_eq, hp, hq, h]

end XNetty
