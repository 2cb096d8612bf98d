import Mathlib.Data.List.Infix
import Mathlib.Data.List.TakeWhile

/-!
# Trees of files, and how paths are resolved in them

A tree has directories, regular files and symbolic links. A path is looked up one component after
the other; a link is replaced by its target, which is looked up from where the link is, or from
the root.

## Main definitions

* `FileTree.Node` — directories, files and links.
* `FileTree.Walks` — a list of components leads from one place to another.
* `FileTree.render` — the text of a place without links.
* `FileTree.Walks.append`, `FileTree.Walks.unique` — walking on, and that there is one way only.
-/

namespace FileTree

abbrev Name := List UInt8

/-- The names on the way from the root. -/
abbrev Path := List Name

inductive Node where
  | dir (entries : List (Name × Node))
  | file (content : List UInt8)
  | link (target : List UInt8)

def slash : UInt8 := 47
def dot : Name := [46]
def dots : Name := [46, 46]

/-- A name that a directory can have an entry of. -/
structure Ordinary (n : Name) : Prop where
  ne_nil : n ≠ []
  ne_dot : n ≠ dot
  ne_dots : n ≠ dots
  noSlash : slash ∉ n
  noNul : 0 ∉ n

instance (n : Name) : Decidable (Ordinary n) :=
  decidable_of_iff (n ≠ [] ∧ n ≠ dot ∧ n ≠ dots ∧ slash ∉ n ∧ 0 ∉ n)
    ⟨fun ⟨h, hdot, hdots, hslash, hnul⟩ => ⟨h, hdot, hdots, hslash, hnul⟩,
      fun h => ⟨h.ne_nil, h.ne_dot, h.ne_dots, h.noSlash, h.noNul⟩⟩

namespace Node

/-- What is at a place, links not followed. -/
def get : Node → Path → Option Node
  | t, [] => some t
  | dir entries, n :: p => (entries.lookup n).bind fun c => c.get p
  | file _, _ :: _ => none
  | link _, _ :: _ => none

@[simp] theorem get_nil (t : Node) : t.get [] = some t := by
  cases t <;> rfl

theorem get_append (t : Node) (p q : Path) : t.get (p ++ q) = (t.get p).bind fun c => c.get q := by
  induction p generalizing t with
  | nil => simp
  | cons n p ih =>
    cases t with
    | dir entries =>
      rw [List.cons_append, get, get]
      cases entries.lookup n with
      | none => rfl
      | some c => exact ih c
    | file content => rfl
    | link target => rfl

def IsLink : Node → Prop
  | link _ => True
  | _ => False

/-- There is a directory. -/
def IsDir (t : Node) (p : Path) : Prop := ∃ entries, t.get p = some (dir entries)

/-- There is something other than a link. -/
def Exists (t : Node) (p : Path) : Prop := ∃ c, t.get p = some c ∧ ¬ c.IsLink

variable {t : Node} {p q : Path}

theorem IsDir.exists (h : t.IsDir p) : t.Exists p := by
  obtain ⟨entries, h⟩ := h
  exact ⟨_, h, id⟩

/-- What has an entry is a directory. -/
theorem isDir_of_get_concat {n : Name} {c : Node} (h : t.get (p ++ [n]) = some c) : t.IsDir p := by
  rw [get_append] at h
  obtain ⟨d, hd, hn⟩ := Option.bind_eq_some_iff.mp h
  cases d with
  | dir entries => exact ⟨entries, hd⟩
  | file content => cases hn
  | link target => cases hn

theorem IsDir.dropLast (h : t.IsDir p) : t.IsDir p.dropLast := by
  rcases List.eq_nil_or_concat p with rfl | ⟨init, n, rfl⟩
  · exact h
  · obtain ⟨entries, hget⟩ := h
    rw [List.concat_eq_append] at hget ⊢
    rw [List.dropLast_concat]
    exact isDir_of_get_concat hget

end Node

/-! ## Texts of paths -/

/-- A string as the system sees it: it ends in front of its first null byte. -/
def cstr (text : List UInt8) : List UInt8 := text.takeWhile (· ≠ 0)

/-- The components of a path. -/
def components (text : List UInt8) : List Name := (cstr text).splitOn slash

/-- Where a path is looked up from. -/
def origin (here : Path) (text : List UInt8) : Path :=
  if text.head? = some slash then [] else here

/-- The text of a place. -/
def render (p : Path) : List UInt8 := slash :: [slash].intercalate p

theorem cstr_of_not_mem {text : List UInt8} (h : 0 ∉ text) : cstr text = text :=
  List.takeWhile_eq_self_iff.mpr fun _ hc => decide_eq_true fun hzero => h (hzero ▸ hc)

theorem cstr_append {s : List UInt8} (h : 0 ∉ s) (x : List UInt8) :
    cstr (s ++ x) = s ++ cstr x := by
  unfold cstr
  rw [List.takeWhile_append_of_pos]
  intro c hc
  exact decide_eq_true fun hzero => h (hzero ▸ hc)

/-- Nothing behind a null byte is seen. -/
theorem cstr_append_of_mem {s : List UInt8} (h : 0 ∈ s) (x : List UInt8) :
    cstr (s ++ x) = cstr s := by
  induction s with
  | nil => cases h
  | cons c s ih =>
    unfold cstr at *
    rw [List.cons_append, List.takeWhile_cons, List.takeWhile_cons]
    by_cases hc : c = 0
    · simp [hc]
    · rw [ih ((List.mem_cons.mp h).resolve_left fun hzero => hc hzero.symm)]

theorem components_ne_nil (text : List UInt8) : components text ≠ [] :=
  List.splitOn_ne_nil _ _

theorem components_join {s : List UInt8} (h : 0 ∉ s) (x : List UInt8) :
    components (s ++ slash :: x) = components s ++ components x := by
  unfold components
  have hcons : cstr (slash :: x) = slash :: cstr x := rfl
  rw [cstr_append h, hcons, List.splitOn_append_cons_self, cstr_of_not_mem h]

theorem components_of_ordinary {n : Name} (h : Ordinary n) : components n = [n] := by
  rw [components, cstr_of_not_mem h.noNul, List.splitOn_eq_singleton h.noSlash]

/-! ## Walking -/

/-- **The components lead from one place to another.** -/
inductive Walks (t : Node) : Path → List Name → Path → Prop
  | done (p) : Walks t p [] p
  | stay {p n rest q} : n = [] ∨ n = dot → t.IsDir p → Walks t p rest q → Walks t p (n :: rest) q
  | up {p rest q} : t.IsDir p → Walks t p.dropLast rest q → Walks t p (dots :: rest) q
  | enter {p n rest q c} : Ordinary n → t.get (p ++ [n]) = some c → ¬ c.IsLink →
      Walks t (p ++ [n]) rest q → Walks t p (n :: rest) q
  | follow {p n rest q target} : Ordinary n → t.get (p ++ [n]) = some (.link target) →
      cstr target ≠ [] → Walks t (origin p target) (components target ++ rest) q →
      Walks t p (n :: rest) q

namespace Walks

variable {t : Node} {p q m : Path} {ns ms : List Name}

/-- Only a directory leads on. -/
theorem isDir {n : Name} (h : Walks t p (n :: ns) q) : t.IsDir p := by
  cases h with
  | stay _ hdir _ => exact hdir
  | up hdir _ => exact hdir
  | enter _ hget _ _ => exact Node.isDir_of_get_concat hget
  | follow _ hget _ _ => exact Node.isDir_of_get_concat hget

/-- **There is one way only.** -/
theorem unique (h : Walks t p ns q) {q' : Path} (h' : Walks t p ns q') : q = q' := by
  induction h with
  | done p =>
    cases h'
    rfl
  | stay hn _ _ ih =>
    cases h' with
    | stay _ _ hrest => exact ih hrest
    | up _ _ => rcases hn with hn | hn <;> cases hn
    | enter hord _ _ _ => exact absurd hn (not_or.mpr ⟨hord.ne_nil, hord.ne_dot⟩)
    | follow hord _ _ _ => exact absurd hn (not_or.mpr ⟨hord.ne_nil, hord.ne_dot⟩)
  | up _ _ ih =>
    cases h' with
    | stay hn _ _ => rcases hn with hn | hn <;> cases hn
    | up _ hrest => exact ih hrest
    | enter hord _ _ _ => exact absurd rfl hord.ne_dots
    | follow hord _ _ _ => exact absurd rfl hord.ne_dots
  | enter hord hget hlink _ ih =>
    cases h' with
    | stay hn _ _ => exact absurd hn (not_or.mpr ⟨hord.ne_nil, hord.ne_dot⟩)
    | up _ _ => exact absurd rfl hord.ne_dots
    | enter _ _ _ hrest => exact ih hrest
    | follow _ hget' _ _ =>
      obtain rfl := Option.some.inj (hget.symm.trans hget')
      exact absurd trivial hlink
  | follow hord hget _ _ ih =>
    cases h' with
    | stay hn _ _ => exact absurd hn (not_or.mpr ⟨hord.ne_nil, hord.ne_dot⟩)
    | up _ _ => exact absurd rfl hord.ne_dots
    | enter _ hget' hlink _ =>
      obtain rfl := Option.some.inj (hget.symm.trans hget')
      exact absurd trivial hlink
    | follow _ hget' _ hrest =>
      obtain rfl := Node.link.inj (Option.some.inj (hget.symm.trans hget'))
      exact ih hrest

theorem trans (h : Walks t p ns m) (h' : Walks t m ms q) : Walks t p (ns ++ ms) q := by
  induction h with
  | done p => exact h'
  | stay hn hdir _ ih => exact .stay hn hdir (ih h')
  | up hdir _ ih => exact .up hdir (ih h')
  | enter hord hget hlink _ ih => exact .enter hord hget hlink (ih h')
  | follow hord hget htarget _ ih =>
    have hrest := ih h'
    rw [List.append_assoc] at hrest
    exact .follow hord hget htarget hrest

theorem split {ks : List Name} (h : Walks t p ks q) (hks : ks = ns ++ ms) :
    ∃ m, Walks t p ns m ∧ Walks t m ms q := by
  induction h generalizing ns with
  | done p =>
    obtain ⟨rfl, rfl⟩ := List.append_eq_nil_iff.mp hks.symm
    exact ⟨p, .done p, .done p⟩
  | stay hn hdir hrest ih =>
    obtain ⟨rfl, rfl⟩ | ⟨ns, rfl, rfl⟩ := List.cons_eq_append_iff.mp hks
    · exact ⟨_, .done _, .stay hn hdir hrest⟩
    · obtain ⟨m, hfirst, hlast⟩ := ih rfl
      exact ⟨m, .stay hn hdir hfirst, hlast⟩
  | up hdir hrest ih =>
    obtain ⟨rfl, rfl⟩ | ⟨ns, rfl, rfl⟩ := List.cons_eq_append_iff.mp hks
    · exact ⟨_, .done _, .up hdir hrest⟩
    · obtain ⟨m, hfirst, hlast⟩ := ih rfl
      exact ⟨m, .up hdir hfirst, hlast⟩
  | enter hord hget hlink hrest ih =>
    obtain ⟨rfl, rfl⟩ | ⟨ns, rfl, rfl⟩ := List.cons_eq_append_iff.mp hks
    · exact ⟨_, .done _, .enter hord hget hlink hrest⟩
    · obtain ⟨m, hfirst, hlast⟩ := ih rfl
      exact ⟨m, .enter hord hget hlink hfirst, hlast⟩
  | follow hord hget htarget hrest ih =>
    obtain ⟨rfl, rfl⟩ | ⟨ns, rfl, rfl⟩ := List.cons_eq_append_iff.mp hks
    · exact ⟨_, .done _, .follow hord hget htarget hrest⟩
    · obtain ⟨m, hfirst, hlast⟩ := ih (List.append_assoc _ _ _).symm
      exact ⟨m, .follow hord hget htarget hfirst, hlast⟩

/-- **Walking on.** -/
theorem append_iff : Walks t p (ns ++ ms) q ↔ ∃ m, Walks t p ns m ∧ Walks t m ms q :=
  ⟨fun h => h.split rfl, fun ⟨_, h, h'⟩ => h.trans h'⟩

/-- Where a walk ends there is something other than a link. -/
theorem exists_end (h : Walks t p ns q) (hroot : t.IsDir []) (hp : t.Exists p) : t.Exists q := by
  induction h with
  | done p => exact hp
  | stay _ _ _ ih => exact ih hp
  | up hdir _ ih => exact ih hdir.dropLast.exists
  | enter _ hget hlink _ ih => exact ih ⟨_, hget, hlink⟩
  | follow _ hget _ _ ih =>
    apply ih
    unfold origin
    split
    · exact hroot.exists
    · exact (Node.isDir_of_get_concat hget).exists

/-- The names on the way are ordinary. -/
theorem ordinary_end (h : Walks t p ns q) (hp : ∀ n ∈ p, Ordinary n) : ∀ n ∈ q, Ordinary n := by
  have hconcat {p : Path} {n : Name} (hp : ∀ m ∈ p, Ordinary m) (hn : Ordinary n) :
      ∀ m ∈ p ++ [n], Ordinary m := by
    simpa [or_imp, forall_and] using ⟨hp, hn⟩
  induction h with
  | done p => exact hp
  | stay _ _ _ ih => exact ih hp
  | up _ _ ih => exact ih fun n hn => hp n (List.mem_of_mem_dropLast hn)
  | enter hord _ _ _ ih => exact ih (hconcat hp hord)
  | follow hord _ _ _ ih =>
    apply ih
    unfold origin
    split
    · exact List.forall_mem_nil _
    · exact hp

/-- Names without links among them lead where they say. -/
theorem of_exists (hord : ∀ n ∈ ns, Ordinary n) (h : t.Exists (p ++ ns)) :
    Walks t p ns (p ++ ns) := by
  induction ns generalizing p with
  | nil =>
    rw [List.append_nil]
    exact .done p
  | cons n ns ih =>
    obtain ⟨hn, hord⟩ := List.forall_mem_cons.mp hord
    have hstep : p ++ n :: ns = p ++ [n] ++ ns := by simp
    rw [hstep] at h ⊢
    obtain ⟨c, hc, hlink⟩ : ∃ c, t.get (p ++ [n]) = some c ∧ ¬ c.IsLink := by
      obtain ⟨d, hd, hdlink⟩ := h
      rw [Node.get_append] at hd
      obtain ⟨c, hc, hrest⟩ := Option.bind_eq_some_iff.mp hd
      refine ⟨c, hc, fun hlink => ?_⟩
      cases c with
      | link target =>
        cases ns with
        | nil =>
          rw [Node.get_nil] at hrest
          obtain rfl := Option.some.inj hrest
          exact hdlink trivial
        | cons n' ns => cases hrest
      | _ => exact hlink
    exact .enter hn hc hlink (ih hord h)

end Walks

end FileTree
