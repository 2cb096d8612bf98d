import XNetty.Lib.FileTree

/-!
# File systems

A tree of files with a working directory, and the calls of the system that look at it: `realpath`,
`stat` and `open`. A place is known by its text, in which every directory ends in a slash.

## Main definitions

* `FileSystem.Resolves` — a text leads to a place.
* `FileSystem.resolves_join` — a slash between two texts is a step between two walks.
* `FileSystem.withSlash_prefix_iff` — a text begins with that of a directory above.
* `FileSystem.system` — the calls.
-/

open FileTree

/-- What `stat` tells. -/
structure FileStat where
  size : ℕ
  isDir : Bool

/-- A file that has been opened, and where it is. Nothing can be read from a directory. -/
structure OpenFile where
  path : Path
  content : List UInt8

/-- The calls, which fail with `none`. -/
structure FileCalls where
  realpath : List UInt8 → Option (List UInt8)
  stat : List UInt8 → Option FileStat
  openFile : List UInt8 → Option OpenFile

structure FileSystem where
  root : Node
  /-- The working directory. -/
  cwd : Path
  /-- What `stat` gives as the size of a directory. -/
  dirSize : Path → ℕ
  /-- What may be opened. -/
  readable : Path → Bool
  root_dir : root.IsDir []
  cwd_dir : root.IsDir cwd
  cwd_ordinary : ∀ n ∈ cwd, Ordinary n

namespace FileSystem

variable (fs : FileSystem)

/-- **The text leads to the place**, links followed. The empty text leads nowhere. -/
def Resolves (text : List UInt8) (q : Path) : Prop :=
  cstr text ≠ [] ∧ Walks fs.root (origin fs.cwd text) (components text) q

open Classical in
noncomputable def resolve (text : List UInt8) : Option Path :=
  if h : ∃ q, fs.Resolves text q then some h.choose else none

/-- What is at a place. -/
def statOf (q : Path) : FileStat :=
  match fs.root.get q with
  | some (.file content) => ⟨content.length, false⟩
  | _ => ⟨fs.dirSize q, true⟩

def contentOf (q : Path) : List UInt8 :=
  match fs.root.get q with
  | some (.file content) => content
  | _ => []

/-- **The calls of the system.** -/
noncomputable def system : FileCalls where
  realpath text := (fs.resolve text).map render
  stat text := (fs.resolve text).map fs.statOf
  openFile text :=
    ((fs.resolve text).filter fs.readable).map fun q => ⟨q, fs.contentOf q⟩

variable {fs} {text s : List UInt8} {p q : Path}

theorem Resolves.unique (h : fs.Resolves text p) (h' : fs.Resolves text q) : p = q :=
  h.2.unique h'.2

theorem resolve_eq_some : fs.resolve text = some q ↔ fs.Resolves text q := by
  unfold resolve
  constructor
  · intro h
    split at h
    next hex =>
      rw [← Option.some.inj h]
      exact hex.choose_spec
    next => cases h
  · intro h
    have hex : ∃ q, fs.Resolves text q := ⟨q, h⟩
    rw [dif_pos hex, hex.choose_spec.unique h]

theorem resolve_eq_none : fs.resolve text = none ↔ ∀ q, ¬ fs.Resolves text q := by
  rw [Option.eq_none_iff_forall_not_mem]
  exact forall_congr' fun q => not_congr resolve_eq_some

theorem origin_dir (text : List UInt8) : fs.root.IsDir (origin fs.cwd text) := by
  unfold origin
  split
  · exact fs.root_dir
  · exact fs.cwd_dir

theorem Resolves.exists (h : fs.Resolves text q) : fs.root.Exists q :=
  h.2.exists_end fs.root_dir (origin_dir text).exists

theorem Resolves.ordinary (h : fs.Resolves text q) : ∀ n ∈ q, Ordinary n := by
  apply h.2.ordinary_end
  unfold origin
  split
  · exact List.forall_mem_nil _
  · exact fs.cwd_ordinary

theorem isDir_iff_statOf (h : fs.root.Exists q) : (fs.statOf q).isDir = true ↔ fs.root.IsDir q := by
  obtain ⟨c, hget, hlink⟩ := h
  unfold statOf Node.IsDir
  rw [hget]
  cases c with
  | dir entries => exact ⟨fun _ => ⟨entries, rfl⟩, fun _ => rfl⟩
  | file content => simp
  | link target => exact absurd trivial hlink

/-! ## Joining texts -/

/-- **A slash between two texts.** -/
theorem resolves_join (hnul : 0 ∉ s) (hne : s ≠ []) (x : List UInt8) :
    fs.Resolves (s ++ slash :: x) q ↔
      ∃ m, fs.Resolves s m ∧ Walks fs.root m (components x) q := by
  have horigin : origin fs.cwd (s ++ slash :: x) = origin fs.cwd s := by
    unfold origin
    rw [List.head?_append_of_ne_nil _ hne]
  unfold Resolves
  rw [components_join hnul, horigin, Walks.append_iff, cstr_append hnul, cstr_of_not_mem hnul]
  simp only [ne_eq, List.append_eq_nil_iff, hne, false_and, not_false_eq_true, true_and]

/-- Nothing behind a null byte counts. -/
theorem resolves_append_of_mem (hnul : 0 ∈ s) (x : List UInt8) :
    fs.Resolves (s ++ x) q ↔ fs.Resolves s q := by
  have hne : s ≠ [] := List.ne_nil_of_mem hnul
  unfold Resolves components origin
  rw [cstr_append_of_mem hnul, List.head?_append_of_ne_nil _ hne]

/-- What stands in front of a slash leads to a directory. -/
theorem Resolves.front (hnul : 0 ∉ s) {x : List UInt8} (h : fs.Resolves (s ++ slash :: x) q) :
    ∃ m, fs.Resolves (s ++ [slash]) m ∧ fs.root.IsDir m := by
  by_cases hne : s = []
  · subst hne
    refine ⟨[], ⟨by decide, ?_⟩, fs.root_dir⟩
    exact .stay (.inl rfl) fs.root_dir (.stay (.inl rfl) fs.root_dir (.done []))
  · obtain ⟨m, hm, hwalk⟩ := (resolves_join hnul hne x).mp h
    have hdir : fs.root.IsDir m := by
      obtain ⟨n, ns, hns⟩ := List.exists_cons_of_ne_nil (components_ne_nil x)
      rw [hns] at hwalk
      exact hwalk.isDir
    exact ⟨m, (resolves_join hnul hne []).mpr ⟨m, hm, .stay (.inl rfl) hdir (.done m)⟩, hdir⟩

/-! ## Texts of places -/

theorem render_ne_nil (q : Path) : render q ≠ [] := List.cons_ne_nil _ _

theorem noNul_render (hq : ∀ n ∈ q, Ordinary n) : 0 ∉ render q := by
  have hmem : ∀ q : Path, (∀ n ∈ q, Ordinary n) → 0 ∉ [slash].intercalate q := by
    intro q hq
    induction q with
    | nil => simp
    | cons n q ih =>
      obtain ⟨hn, hq⟩ := List.forall_mem_cons.mp hq
      cases q with
      | nil => simpa using hn.noNul
      | cons n' q =>
        rw [List.intercalate_cons_cons]
        simp only [List.mem_append, not_or]
        exact ⟨⟨hn.noNul, by decide⟩, ih hq⟩
  intro h
  rcases List.mem_cons.mp h with h | h
  · cases h
  · exact hmem q hq h

/-- **A place without links is where its text leads.** -/
theorem resolves_render (hq : ∀ n ∈ q, Ordinary n) (hex : fs.root.Exists q) :
    fs.Resolves (render q) q := by
  have hnul := noNul_render hq
  refine ⟨?_, ?_⟩
  · rw [cstr_of_not_mem hnul]
    exact render_ne_nil q
  · have horigin : origin fs.cwd (render q) = [] := if_pos rfl
    have hjoin : components (render q) = [] :: components ([slash].intercalate q) :=
      components_join List.not_mem_nil _
    rw [horigin, hjoin]
    apply Walks.stay (.inl rfl) fs.root_dir
    by_cases hnil : q = []
    · subst hnil
      exact .stay (.inl rfl) fs.root_dir (.done [])
    · have hnul' : 0 ∉ [slash].intercalate q := fun h => hnul (List.mem_cons_of_mem _ h)
      have hnames : components ([slash].intercalate q) = q := by
        rw [components, cstr_of_not_mem hnul',
          List.splitOn_intercalate _ (fun n hn => (hq n hn).noSlash) hnil]
      rw [hnames]
      exact Walks.of_exists (p := []) hq hex

theorem Resolves.render (h : fs.Resolves text q) : fs.Resolves (FileTree.render q) q :=
  resolves_render h.ordinary h.exists

/-- Behind the text of a place, a text leads where it leads from there. -/
theorem Resolves.behind (h : fs.Resolves text p) (x : List UInt8) :
    fs.Resolves (FileTree.render p ++ slash :: x) q ↔ Walks fs.root p (components x) q := by
  rw [resolves_join (noNul_render h.ordinary) (render_ne_nil p)]
  constructor
  · rintro ⟨m, hm, hwalk⟩
    rwa [h.render.unique hm]
  · intro hwalk
    exact ⟨p, h.render, hwalk⟩

/-- The text, with a slash at its end. -/
def withSlash (text : List UInt8) : List UInt8 :=
  if text.getLast? = some slash then text else text ++ [slash]

/-- Names behind one another, with a slash behind each of them. -/
theorem intercalate_slash {q : Path} (hne : q ≠ []) :
    [slash].intercalate q ++ [slash] = q.flatMap fun n => n ++ [slash] := by
  induction q with
  | nil => exact absurd rfl hne
  | cons n q ih =>
    cases q with
    | nil => simp
    | cons n' q =>
      rw [List.intercalate_cons_cons, List.flatMap_cons, ← ih (List.cons_ne_nil _ _)]
      simp only [List.append_assoc]

theorem getLast?_intercalate {q : Path} (hq : ∀ n ∈ q, Ordinary n) (hne : q ≠ []) :
    ∃ c ∈ ([slash].intercalate q).getLast?, c ≠ slash := by
  induction q with
  | nil => exact absurd rfl hne
  | cons n q ih =>
    obtain ⟨hn, hq⟩ := List.forall_mem_cons.mp hq
    cases q with
    | nil =>
      refine ⟨n.getLast hn.ne_nil, ?_, ?_⟩
      · simp [List.getLast?_eq_some_getLast hn.ne_nil]
      · exact fun h => hn.noSlash (h ▸ List.getLast_mem hn.ne_nil)
    | cons n' q =>
      obtain ⟨c, hc, hslash⟩ := ih hq (List.cons_ne_nil _ _)
      refine ⟨c, ?_, hslash⟩
      rw [List.intercalate_cons_cons]
      exact List.mem_getLast?_append_of_mem_getLast? hc

theorem withSlash_render {q : Path} (hq : ∀ n ∈ q, Ordinary n) :
    withSlash (FileTree.render q) = slash :: q.flatMap fun n => n ++ [slash] := by
  by_cases hne : q = []
  · subst hne
    rfl
  · obtain ⟨c, hc, hslash⟩ := getLast?_intercalate hq hne
    have hlast : (FileTree.render q).getLast? = some c := by
      rw [FileTree.render, List.getLast?_cons, Option.mem_def.mp hc]
      rfl
    have hcons : FileTree.render q ++ [slash] = slash :: ([slash].intercalate q ++ [slash]) := rfl
    rw [withSlash, hlast, if_neg (fun h => hslash (Option.some.inj h)), hcons,
      intercalate_slash hne]

theorem append_slash_inj {n n' x y : List UInt8} (hn : slash ∉ n) (hn' : slash ∉ n')
    (h : n ++ slash :: x = n' ++ slash :: y) : n = n' ∧ x = y := by
  rcases List.append_eq_append_iff.mp h with ⟨c, rfl, hc⟩ | ⟨c, rfl, hc⟩
  · cases c with
    | nil => exact ⟨(List.append_nil n).symm, (List.cons.inj hc).2⟩
    | cons b c =>
      obtain rfl := (List.cons.inj hc).1
      exact absurd (List.mem_append_right n List.mem_cons_self) hn'
  · cases c with
    | nil => exact ⟨List.append_nil n', (List.cons.inj hc).2.symm⟩
    | cons b c =>
      obtain rfl := (List.cons.inj hc).1
      exact absurd (List.mem_append_right n' List.mem_cons_self) hn

theorem flatMap_slash_prefix_iff {p q : Path} (hp : ∀ n ∈ p, Ordinary n)
    (hq : ∀ n ∈ q, Ordinary n) :
    ((p.flatMap fun n => n ++ [slash]) <+: q.flatMap fun n => n ++ [slash]) ↔ p <+: q := by
  induction p generalizing q with
  | nil => simp
  | cons n p ih =>
    cases q with
    | nil => simp
    | cons n' q =>
      obtain ⟨hn, hp⟩ := List.forall_mem_cons.mp hp
      obtain ⟨hn', hq⟩ := List.forall_mem_cons.mp hq
      rw [List.flatMap_cons, List.flatMap_cons, List.cons_prefix_cons, ← ih hp hq]
      simp only [List.append_assoc, List.singleton_append]
      constructor
      · rintro ⟨rest, hrest⟩
        rw [List.append_assoc, List.cons_append] at hrest
        obtain ⟨rfl, htail⟩ := append_slash_inj hn.noSlash hn'.noSlash hrest
        exact ⟨rfl, rest, htail⟩
      · rintro ⟨rfl, hpre⟩
        exact (List.prefix_append_right_inj n).mpr (List.cons_prefix_cons.mpr ⟨rfl, hpre⟩)

/-- **Below a directory**: the text begins with that of the directory. -/
theorem withSlash_prefix_iff {p q : Path} (hp : ∀ n ∈ p, Ordinary n) (hq : ∀ n ∈ q, Ordinary n) :
    withSlash (FileTree.render p) <+: withSlash (FileTree.render q) ↔ p <+: q := by
  rw [withSlash_render hp, withSlash_render hq, List.cons_prefix_cons, and_iff_right rfl,
    flatMap_slash_prefix_iff hp hq]

end FileSystem
