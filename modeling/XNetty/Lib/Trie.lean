import Mathlib.Tactic

/-!
# Tries

A trie is a tree whose nodes carry data, each child being reached by the label of its
data. Nodes are made on demand when something is put at the end of a path. A trie is
described from outside by the labels below a path and by a value at a path.

## Main definitions

* `Trie.get?` — the node at the end of a path of labels.
* `Trie.alter` — change the data at the end of a path, making the nodes on the way.
* `Trie.labelsAt`, `Trie.valueAt` — the two views, with their laws under `alter`.
-/

/-- A tree with data at its nodes; children stand in the order of their arrival. -/
inductive Trie (α : Type*) where
  | node (data : α) (children : List (Trie α))

namespace Trie

variable {α β κ : Type*}

def data : Trie α → α
  | node a _ => a

def children : Trie α → List (Trie α)
  | node _ cs => cs

@[simp] theorem data_node (a : α) (cs : List (Trie α)) : (node a cs).data = a := rfl
@[simp] theorem children_node (a : α) (cs : List (Trie α)) : (node a cs).children = cs := rfl

@[simp] theorem node_data_children (t : Trie α) : node t.data t.children = t := by
  cases t; rfl

variable [DecidableEq κ] (label : α → κ)

/-! ## Children -/

def labels (t : Trie α) : List κ := t.children.map fun c => label c.data

/-- The first child with label `k`. -/
def child? (k : κ) (t : Trie α) : Option (Trie α) :=
  t.children.find? fun c => decide (label c.data = k)

/-- Apply `f` to the first tree with label `k`, or to `fresh` behind the others. -/
def modifyFirst (k : κ) (fresh : Trie α) (f : Trie α → Trie α) :
    List (Trie α) → List (Trie α)
  | [] => [f fresh]
  | c :: cs => if label c.data = k then f c :: cs else c :: modifyFirst k fresh f cs

def modifyChild (k : κ) (fresh : Trie α) (f : Trie α → Trie α) (t : Trie α) : Trie α :=
  node t.data (modifyFirst label k fresh f t.children)

/-- Put a label behind the others unless it is there already. -/
def addLabel (ks : List κ) (k : κ) : List κ := if k ∈ ks then ks else ks ++ [k]

theorem mem_addLabel {ks : List κ} {k j : κ} : j ∈ addLabel ks k ↔ j ∈ ks ∨ j = k := by
  unfold addLabel
  split
  next h => exact ⟨.inl, fun hj => hj.elim id fun e => e ▸ h⟩
  next h => simp

theorem nodup_addLabel {ks : List κ} (h : ks.Nodup) (k : κ) : (addLabel ks k).Nodup := by
  unfold addLabel
  split
  next => exact h
  next hk =>
    rw [List.nodup_append]
    refine ⟨h, List.nodup_singleton k, fun a ha b hb e => hk ?_⟩
    rwa [← List.mem_singleton.mp hb, ← e]

/-- A label put behind the others is found only when none before it is. -/
theorem find?_addLabel (p : κ → Bool) (ks : List κ) (k : κ) :
    (addLabel ks k).find? p = (ks ++ [k]).find? p := by
  unfold addLabel
  split
  next h =>
    rw [List.find?_append]
    cases hf : ks.find? p with
    | some a => rfl
    | none => simpa using List.find?_eq_none.mp hf k h
  next => rfl

/-- A label stands before another when it is the first of the two to be found. -/
theorem idxOf_lt_idxOf_iff (ks : List κ) (j k : κ) :
    ks.idxOf j < ks.idxOf k ↔
      j ≠ k ∧ ks.find? (fun i => decide (i = j ∨ i = k)) = some j := by
  induction ks with
  | nil => simp
  | cons i ks ih =>
    by_cases hj : i = j
    · subst hj
      by_cases hk : i = k
      · simp [hk]
      · simp [hk, List.idxOf_cons_ne ks hk]
    · by_cases hk : i = k
      · subst hk
        simp [hj]
      · rw [List.idxOf_cons_ne ks hj, List.idxOf_cons_ne ks hk,
          List.find?_cons_of_neg (by simp [hj, hk]), ← ih]
        omega

section foldl

variable (ks : List κ)

theorem mem_foldl_addLabel {j : κ} : j ∈ ks.foldl addLabel [] ↔ j ∈ ks := by
  induction ks using List.reverseRecOn with
  | nil => rfl
  | append_singleton ks k ih => simp [mem_addLabel, ih]

theorem nodup_foldl_addLabel : (ks.foldl addLabel []).Nodup := by
  induction ks using List.reverseRecOn with
  | nil => exact List.nodup_nil
  | append_singleton ks k ih => simpa using nodup_addLabel ih k

theorem find?_foldl_addLabel (p : κ → Bool) : (ks.foldl addLabel []).find? p = ks.find? p := by
  induction ks using List.reverseRecOn with
  | nil => rfl
  | append_singleton ks k ih => simp [find?_addLabel, ih]

/-- Labels stand in the order in which they came first. -/
theorem idxOf_foldl_addLabel_lt (j k : κ) :
    (ks.foldl addLabel []).idxOf j < (ks.foldl addLabel []).idxOf k ↔
      ks.idxOf j < ks.idxOf k := by
  rw [idxOf_lt_idxOf_iff, find?_foldl_addLabel, ← idxOf_lt_idxOf_iff]

end foldl

variable {label}

theorem label_child? {k : κ} {t c : Trie α} (h : child? label k t = some c) :
    label c.data = k := by simpa using List.find?_some h

theorem child?_isSome {k : κ} {t : Trie α} :
    (child? label k t).isSome ↔ k ∈ labels label t := by
  simp [child?, labels]

/-- Where no two children share a label, each child is found by its own. -/
theorem child?_of_mem {t c : Trie α} (hnd : (labels label t).Nodup) (hc : c ∈ t.children) :
    child? label (label c.data) t = some c := by
  unfold child? labels at *
  generalize t.children = cs at *
  induction cs with
  | nil => cases hc
  | cons d ds ih =>
    obtain ⟨hd, hds⟩ := List.nodup_cons.mp hnd
    obtain rfl | hmem := List.mem_cons.mp hc
    · simp
    · have hne : label d.data ≠ label c.data := fun e =>
        hd (List.mem_map.mpr ⟨c, hmem, e.symm⟩)
      rw [List.find?_cons_of_neg (by simpa using hne)]
      exact ih hds hmem

section modifyChild

variable {k : κ} {fresh : Trie α} {f g : Trie α → Trie α} (hfresh : label fresh.data = k)
  (hf : ∀ c, label c.data = k → label (f c).data = k)

theorem modifyChild_congr {t : Trie α}
    (h : f ((child? label k t).getD fresh) = g ((child? label k t).getD fresh)) :
    modifyChild label k fresh f t = modifyChild label k fresh g t := by
  unfold modifyChild child? at *
  congr 1
  generalize t.children = cs at *
  induction cs with
  | nil => simpa [modifyFirst] using h
  | cons c cs ih =>
    by_cases hc : label c.data = k
    · simp only [modifyFirst, if_pos hc]
      rw [List.find?_cons_of_pos (by simpa using hc)] at h
      rw [show f c = g c from h]
    · simp only [modifyFirst, if_neg hc]
      rw [List.find?_cons_of_neg (by simpa using hc)] at h
      rw [ih h]

include hfresh hf

theorem child?_modifyChild_self (t : Trie α) :
    child? label k (modifyChild label k fresh f t) =
      some (f ((child? label k t).getD fresh)) := by
  unfold child? modifyChild
  rw [children_node]
  induction t.children with
  | nil => simp [modifyFirst, hf fresh hfresh]
  | cons c cs ih =>
    by_cases hc : label c.data = k
    · simp [modifyFirst, hc, hf c hc]
    · simpa [modifyFirst, hc] using ih

theorem child?_modifyChild_of_ne {j : κ} (hj : j ≠ k) (t : Trie α) :
    child? label j (modifyChild label k fresh f t) = child? label j t := by
  unfold child? modifyChild
  rw [children_node]
  induction t.children with
  | nil => simp [modifyFirst, hf fresh hfresh, hj.symm]
  | cons c cs ih =>
    by_cases hc : label c.data = k
    · simp [modifyFirst, hc, hf c hc, hj.symm]
    · by_cases hcj : label c.data = j
      · simp [modifyFirst, hcj, hj]
      · simpa [modifyFirst, hc, hcj] using ih

theorem labels_modifyChild (t : Trie α) :
    labels label (modifyChild label k fresh f t) = addLabel (labels label t) k := by
  unfold labels modifyChild
  rw [children_node]
  induction t.children with
  | nil => simp [modifyFirst, addLabel, hf fresh hfresh]
  | cons c cs ih =>
    by_cases hc : label c.data = k
    · simp [modifyFirst, addLabel, hc, hf c hc]
    · have hkc : k ≠ label c.data := fun e => hc e.symm
      simp only [modifyFirst, if_neg hc, List.map_cons, ih, addLabel, List.mem_cons, hkc,
        false_or]
      split <;> rfl

end modifyChild

/-! ## Paths -/

variable (label)

/-- The node at the end of a path. -/
def get? : List κ → Trie α → Option (Trie α)
  | [], t => some t
  | k :: p, t => (child? label k t).bind (get? p)

@[simp] theorem get?_nil (t : Trie α) : get? label [] t = some t := rfl

@[simp] theorem get?_cons (k : κ) (p : List κ) (t : Trie α) :
    get? label (k :: p) t = (child? label k t).bind (get? label p) := rfl

theorem get?_append (p q : List κ) (t : Trie α) :
    get? label (p ++ q) t = (get? label p t).bind (get? label q) := by
  induction p generalizing t with
  | nil => rfl
  | cons k p ih =>
    cases hc : child? label k t with
    | none => simp [hc]
    | some c => simp [hc, ih]

/-- The labels of the children of the node at `p`. -/
def labelsAt (p : List κ) (t : Trie α) : List κ := ((get? label p t).map (labels label)).getD []

/-- The value of the data at `p`, and `d` where there is no node. -/
def valueAt (v : α → β) (d : β) (p : List κ) (t : Trie α) : β :=
  ((get? label p t).map fun s => v s.data).getD d

/-- `P` holds of the data of every node that a path leads to. -/
def Everywhere (P : α → Prop) (t : Trie α) : Prop :=
  ∀ p s, get? label p t = some s → P s.data

variable {label}

theorem Everywhere.child? {P : α → Prop} {t c : Trie α} {k : κ} (h : Everywhere label P t)
    (hc : Trie.child? label k t = some c) : Everywhere label P c :=
  fun p s hs => h (k :: p) s (by simpa [hc] using hs)

@[simp] theorem child?_leaf (k : κ) (a : α) : Trie.child? label k (node a []) = none := rfl

@[simp] theorem labelsAt_leaf (p : List κ) (a : α) : labelsAt label p (node a []) = [] := by
  cases p <;> simp [labelsAt, labels]

theorem valueAt_leaf {v : α → β} {d : β} {a : α} (h : v a = d) (p : List κ) :
    valueAt label v d p (node a []) = d := by
  cases p <;> simp [valueAt, h]

/-- What lies below a missing child is what lies below a leaf. -/
theorem labelsAt_cons (k : κ) (p : List κ) (t : Trie α) (a : α) :
    labelsAt label (k :: p) t = labelsAt label p ((Trie.child? label k t).getD (node a [])) := by
  cases hc : Trie.child? label k t with
  | some c => simp [labelsAt, hc]
  | none => rw [Option.getD_none, labelsAt_leaf, labelsAt, get?_cons, hc]; rfl

theorem valueAt_cons {v : α → β} {d : β} {a : α} (h : v a = d) (k : κ) (p : List κ)
    (t : Trie α) :
    valueAt label v d (k :: p) t =
      valueAt label v d p ((Trie.child? label k t).getD (node a [])) := by
  cases hc : Trie.child? label k t with
  | some c => simp [valueAt, hc]
  | none => rw [Option.getD_none, valueAt_leaf h, valueAt, get?_cons, hc]; rfl

theorem everywhere_leaf {P : α → Prop} {a : α} (h : P a) : Everywhere label P (node a []) := by
  intro p s hs
  cases p with
  | nil => obtain rfl := Option.some.inj hs; exact h
  | cons k p => simp at hs

/-! ## Putting something at the end of a path -/

/-- The label behind the path `p` in a longer path. -/
def nextLabel : List κ → List κ → Option κ
  | [], [] => none
  | [], k :: _ => some k
  | _ :: _, [] => none
  | j :: p, k :: ks => if j = k then nextLabel p ks else none

@[simp] theorem nextLabel_nil_right (p : List κ) : nextLabel p [] = none := by cases p <;> rfl

theorem nextLabel_append (p : List κ) (k : κ) (ks : List κ) :
    nextLabel p (p ++ k :: ks) = some k := by
  induction p with
  | nil => rfl
  | cons j p ih => rw [List.cons_append, nextLabel, if_pos rfl, ih]

theorem nextLabel_eq_some {p ks : List κ} {k : κ} (h : nextLabel p ks = some k) :
    p ++ [k] <+: ks := by
  induction p generalizing ks with
  | nil =>
    cases ks with
    | nil => cases h
    | cons j ks =>
      obtain rfl := Option.some.inj h
      exact ⟨ks, rfl⟩
  | cons i p ih =>
    cases ks with
    | nil => cases h
    | cons j ks =>
      by_cases hij : i = j
      · rw [nextLabel, if_pos hij] at h
        rw [hij, List.cons_append, List.cons_prefix_cons]
        exact ⟨rfl, ih h⟩
      · rw [nextLabel, if_neg hij] at h
        cases h

variable (label)

/-- Change the data at the end of a path; missing nodes on the way are made by `fresh`. -/
def alter (fresh : κ → α) (g : α → α) : List κ → Trie α → Trie α
  | [], t => node (g t.data) t.children
  | k :: ks, t => modifyChild label k (node (fresh k) []) (alter fresh g ks) t

variable {label} {fresh : κ → α} {g : α → α}

section alter

variable (hfresh : ∀ k, label (fresh k) = k) (hg : ∀ a, label (g a) = label a)
include hfresh hg

omit hfresh in
theorem label_alter (ks : List κ) (t : Trie α) :
    label (alter label fresh g ks t).data = label t.data := by
  cases ks with
  | nil => exact hg _
  | cons k ks => rfl

theorem child?_alter_self (k : κ) (ks : List κ) (t : Trie α) :
    child? label k (alter label fresh g (k :: ks) t) =
      some (alter label fresh g ks ((child? label k t).getD (node (fresh k) []))) :=
  child?_modifyChild_self (by simp [hfresh]) (fun c hc => (label_alter hg ks c).trans hc) t

theorem child?_alter_of_ne {j k : κ} (hj : j ≠ k) (ks : List κ) (t : Trie α) :
    child? label j (alter label fresh g (k :: ks) t) = child? label j t :=
  child?_modifyChild_of_ne (by simp [hfresh]) (fun c hc => (label_alter hg ks c).trans hc) hj t

/-- **Labels below a path**: the altered path adds the label it goes on with. -/
theorem labelsAt_alter (p ks : List κ) (t : Trie α) :
    labelsAt label p (alter label fresh g ks t) =
      match nextLabel p ks with
      | some k => addLabel (labelsAt label p t) k
      | none => labelsAt label p t := by
  induction ks generalizing p t with
  | nil =>
    rw [nextLabel_nil_right]
    cases p with
    | nil => rfl
    | cons j p => rfl
  | cons k ks ih =>
    cases p with
    | nil =>
      exact labels_modifyChild (by simp [hfresh]) (fun c hc => (label_alter hg ks c).trans hc) t
    | cons j p =>
      by_cases hj : j = k
      · subst hj
        have hafter : labelsAt label (j :: p) (alter label fresh g (j :: ks) t) =
            labelsAt label p
              (alter label fresh g ks ((child? label j t).getD (node (fresh j) []))) := by
          rw [labelsAt, get?_cons, child?_alter_self hfresh hg]
          rfl
        rw [hafter, ih, ← labelsAt_cons, nextLabel, if_pos rfl]
      · rw [nextLabel, if_neg hj]
        simp only [labelsAt, get?_cons, child?_alter_of_ne hfresh hg hj]

/-- **Values at a path**: only the value at the end of the altered path changes. -/
theorem valueAt_alter {v : α → β} {d : β} (G : β → β) (hv : ∀ k, v (fresh k) = d)
    (hG : ∀ a, v (g a) = G (v a)) (p ks : List κ) (t : Trie α) :
    valueAt label v d p (alter label fresh g ks t) =
      if p = ks then G (valueAt label v d p t) else valueAt label v d p t := by
  induction ks generalizing p t with
  | nil =>
    cases p with
    | nil => exact hG _
    | cons j p => rfl
  | cons k ks ih =>
    cases p with
    | nil => rfl
    | cons j p =>
      by_cases hj : j = k
      · subst hj
        have hafter : valueAt label v d (j :: p) (alter label fresh g (j :: ks) t) =
            valueAt label v d p
              (alter label fresh g ks ((child? label j t).getD (node (fresh j) []))) := by
          rw [valueAt, get?_cons, child?_alter_self hfresh hg]
          rfl
        simp only [hafter, ih, ← valueAt_cons (hv j), List.cons.injEq, true_and]
      · simp [valueAt, child?_alter_of_ne hfresh hg hj, hj]

theorem Everywhere.alter {P : α → Prop} (hP : ∀ k, P (fresh k)) (hPg : ∀ a, P a → P (g a))
    {t : Trie α} (h : Everywhere label P t) (ks : List κ) :
    Everywhere label P (Trie.alter label fresh g ks t) := by
  induction ks generalizing t with
  | nil =>
    intro p s hs
    cases p with
    | nil => obtain rfl := Option.some.inj hs; exact hPg _ (h [] t rfl)
    | cons k p => exact h (k :: p) s hs
  | cons k ks ih =>
    intro p s hs
    cases p with
    | nil => obtain rfl := Option.some.inj hs; exact h [] t rfl
    | cons j p =>
      by_cases hj : j = k
      · subst hj
        rw [get?_cons, child?_alter_self hfresh hg] at hs
        refine ih ?_ p s hs
        cases hc : Trie.child? label j t with
        | some c => exact h.child? hc
        | none => exact everywhere_leaf (hP j)
      · rw [get?_cons, child?_alter_of_ne hfresh hg hj] at hs
        exact h (j :: p) s hs

end alter

end Trie
