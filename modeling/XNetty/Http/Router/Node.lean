import XNetty.Lib.Trie
import XNetty.Http.Request
import XNetty.Http.Router.Path

/-!
# The router's trie

The tree of the source with its two searches: `matchNode` tries literal and then parameter
children and goes back where it fails; `walk` prefers the same children and never goes back.

## Main definitions

* `Node`, `insertRoute` — the tree and the registration of a route in it.
* `matchNode`, `walk` — the two searches.
* `Pattern.Matches`, `Pattern.bindings` — what a path of the tree stands for.
-/

namespace XNetty

/-! ## Patterns -/

/-- A segment of a route: a text, or a name that any segment of a request is bound to. -/
inductive Segment where
  | literal (text : Bytes)
  | param (name : Bytes)
  deriving DecidableEq

/-- `:name` is a parameter when the name has only the characters of parameter names. -/
def Segment.ofBytes (seg : Bytes) : Segment :=
  if seg.head? = some colon ∧ seg.tail.all isParamName then .param seg.tail else .literal seg

def Segment.isParam : Segment → Bool
  | .literal _ => false
  | .param _ => true

def Segment.Matches : Segment → Bytes → Prop
  | .literal text, seg => text = seg
  | .param _, _ => True

abbrev Pattern := List Segment

namespace Pattern

/-- As many segments as the pattern has, each matched by its own. -/
def Matches : Pattern → List Bytes → Prop
  | [], [] => True
  | s :: p, seg :: segs => s.Matches seg ∧ Matches p segs
  | _, _ => False

/-- The bindings of a pattern's parameters, on top of `params`. Of two parameters of one
name the later one is kept. -/
def bindings : Pattern → List Bytes → StringMap → StringMap
  | .literal _ :: p, _ :: segs, params => bindings p segs params
  | .param name :: p, seg :: segs, params => bindings p segs (params.insert name seg)
  | _, _, params => params

theorem Matches.length_eq {p : Pattern} {segs : List Bytes} (h : Matches p segs) :
    p.length = segs.length := by
  induction p generalizing segs with
  | nil => cases segs <;> simp_all [Matches]
  | cons s p ih =>
    cases segs with
    | nil => exact absurd h id
    | cons seg segs => simp [ih h.2]

theorem Matches.concat {p : Pattern} {segs : List Bytes} {s : Segment} {seg : Bytes}
    (hp : Matches p segs) (hs : s.Matches seg) : Matches (p ++ [s]) (segs ++ [seg]) := by
  induction p generalizing segs with
  | nil => cases segs with
    | nil => exact ⟨hs, trivial⟩
    | cons => exact absurd hp id
  | cons t p ih =>
    cases segs with
    | nil => exact absurd hp id
    | cons seg' segs => exact ⟨hp.1, ih hp.2⟩

theorem matches_literal (segs : List Bytes) : Matches (segs.map .literal) segs := by
  induction segs with
  | nil => trivial
  | cons seg segs ih => exact ⟨rfl, ih⟩

end Pattern

/-! ## Methods -/

/-- The five slots of a node or of a static route. -/
abbrev Handlers (H : Type*) := Fin 5 → Option H

/-- The `switch` that picks a slot. -/
def methodIndex : HttpMethod → Fin 5
  | .get => 0
  | .post => 1
  | .put => 2
  | .patch => 3
  | .delete => 4
  | _ => 0

/-- `1 << i`. -/
def slotBit (i : Fin 5) : UInt8 := 1 <<< UInt8.ofNat i.val

/-- `Router::methodToMask`. -/
def methodToMask : HttpMethod → UInt8
  | .get => slotBit 0
  | .post => slotBit 1
  | .put => slotBit 2
  | .patch => slotBit 3
  | .delete => slotBit 4
  | _ => 0

namespace Handlers

variable {H : Type*}

def none : Handlers H := fun _ => Option.none

/-- `Node::methodMask`. -/
def methodMask (handlers : Handlers H) : UInt8 :=
  (List.finRange 5).foldl (fun m i => if (handlers i).isSome then m ||| slotBit i else m) 0

/-- `Node::handlerFor`. -/
def handlerFor (handlers : Handlers H) (mask : UInt8) : Option H :=
  (List.finRange 5).findSome? fun i => if mask &&& slotBit i ≠ 0 then handlers i else .none

/-- The mask of a method selects the method's slot. -/
theorem handlerFor_methodToMask (handlers : Handlers H) {m : HttpMethod}
    (hm : methodToMask m ≠ 0) :
    handlers.handlerFor (methodToMask m) = handlers (methodIndex m) := by
  have hbits : ∀ i j : Fin 5, slotBit i &&& slotBit j ≠ 0 ↔ i = j := by decide
  have hslot : ∀ i : Fin 5, handlers.handlerFor (slotBit i) = handlers i := by
    intro i
    simp only [handlerFor, hbits]
    fin_cases i <;> simp [List.finRange, List.findSome?] <;> cases handlers _ <;> rfl
  cases m with
  | get | post | put | patch | delete => exact hslot _
  | head | options | unknown => exact absurd rfl hm

/-- The mask is set exactly when some slot is. -/
theorem methodMask_ne_zero (handlers : Handlers H) :
    handlers.methodMask ≠ 0 ↔ ∃ i, (handlers i).isSome := by
  have hbit : ∀ i : Fin 5, slotBit i ≠ 0 := by decide
  have hfold : ∀ (is : List (Fin 5)) (m : UInt8),
      is.foldl (fun m i => if (handlers i).isSome then m ||| slotBit i else m) m ≠ 0 ↔
        m ≠ 0 ∨ ∃ i ∈ is, (handlers i).isSome := by
    intro is
    induction is with
    | nil => simp
    | cons i is ih =>
      intro m
      rw [List.foldl_cons, ih]
      by_cases hi : (handlers i).isSome
      · have hor : m ||| slotBit i ≠ 0 := fun h => hbit i (UInt8.or_eq_zero_iff.mp h).2
        simp [hi, hor]
      · simp [hi]
  rw [methodMask, hfold]
  simp

end Handlers

/-! ## Nodes -/

/-- `Router::Node` without its children. -/
structure NodeData (H : Type*) where
  segment : Bytes := []
  isParam : Bool := false
  paramName : Bytes := []
  handlers : Handlers H := .none

/-- `findChild` compares `isParam` and `segment`. -/
def NodeData.label {H : Type*} (a : NodeData H) : Segment :=
  if a.isParam then .param a.segment else .literal a.segment

/-- `Router::Node`. -/
abbrev Node (H : Type*) := Trie (NodeData H)

namespace Node

variable {H : Type*}

/-- The node that `findOrCreate` pushes for a label. -/
def fresh : Segment → NodeData H
  | .literal text => { segment := text }
  | .param name => { segment := name, isParam := true, paramName := name }

/-- `findOrCreate`, going on with `f` on the node it returns. -/
def findOrCreate (label : Segment) (f : Node H → Node H) (n : Node H) : Node H :=
  Trie.modifyChild NodeData.label label (.node (fresh label) []) f n

/-- `cur->paramName = key`. -/
def setParamName (key : Bytes) (n : Node H) : Node H :=
  .node { n.data with paramName := key } n.children

/-- `cur->handlers[idx] = handler`. -/
def setHandler (idx : Fin 5) (h : H) (a : NodeData H) : NodeData H :=
  { a with handlers := Function.update a.handlers idx (some h) }

/-- The loop of `addRoute` over the segments. -/
def insertRoute (idx : Fin 5) (h : H) : List Bytes → Node H → Node H
  | [], cur => .node (setHandler idx h cur.data) cur.children
  | seg :: segs, cur =>
    if seg.head? = some colon then
      let key := seg.tail
      if key.all isParamName then
        cur.findOrCreate (.param key) fun c => insertRoute idx h segs (c.setParamName key)
      else cur.findOrCreate (.literal seg) (insertRoute idx h segs)
    else cur.findOrCreate (.literal seg) (insertRoute idx h segs)

/-! ## Registration puts a handler at the end of a path -/

@[simp] theorem label_fresh (k : Segment) : (fresh k : NodeData H).label = k := by
  cases k <;> rfl

@[simp] theorem label_setHandler (idx : Fin 5) (h : H) (a : NodeData H) :
    (setHandler idx h a).label = a.label := rfl

/-- Parameter nodes are named after their segment. -/
def Named (a : NodeData H) : Prop := a.isParam → a.paramName = a.segment

theorem named_fresh (k : Segment) : Named (fresh k : NodeData H) := by
  cases k <;> simp [Named, fresh]

/-- Naming a node after its label changes nothing. -/
theorem setParamName_of_named {n : Node H} {key : Bytes} (hn : Named n.data)
    (hl : n.data.label = .param key) : n.setParamName key = n := by
  cases hp : n.data.isParam with
  | false => simp [NodeData.label, hp] at hl
  | true =>
    have hseg : n.data.segment = key := by simpa [NodeData.label, hp] using hl
    have hname : n.data.paramName = key := (hn hp).trans hseg
    obtain ⟨a, cs⟩ := n
    simp only [Trie.data_node] at hname
    simp [setParamName, ← hname]

/-- **Registration** alters the trie at the end of the route's pattern. -/
theorem insertRoute_eq_alter {n : Node H} (hn : Trie.Everywhere NodeData.label Named n)
    (idx : Fin 5) (h : H) (segs : List Bytes) :
    insertRoute idx h segs n =
      Trie.alter NodeData.label fresh (setHandler idx h) (segs.map Segment.ofBytes) n := by
  induction segs generalizing n with
  | nil => rfl
  | cons seg segs ih =>
    have hchild : ∀ k, Trie.Everywhere NodeData.label Named
        ((Trie.child? NodeData.label k n).getD (.node (fresh k) [])) := by
      intro k
      cases hc : Trie.child? NodeData.label k n with
      | some c => exact hn.child? hc
      | none => exact Trie.everywhere_leaf (named_fresh k)
    have hlabel : ∀ k,
        ((Trie.child? NodeData.label k n).getD (.node (fresh k) [])).data.label = k := by
      intro k
      cases hc : Trie.child? NodeData.label k n with
      | some c => exact Trie.label_child? hc
      | none => exact label_fresh k
    rw [List.map_cons, Trie.alter]
    by_cases hcolon : seg.head? = some colon
    · by_cases hkey : seg.tail.all isParamName
      · rw [insertRoute, if_pos hcolon, if_pos hkey, Segment.ofBytes, if_pos ⟨hcolon, hkey⟩]
        refine Trie.modifyChild_congr ?_
        rw [setParamName_of_named (hchild _ [] _ rfl) (hlabel _), ih (hchild _)]
      · rw [insertRoute, if_pos hcolon, if_neg hkey, Segment.ofBytes, if_neg (hkey ·.2)]
        exact Trie.modifyChild_congr (ih (hchild _))
    · rw [insertRoute, if_neg hcolon, Segment.ofBytes, if_neg (hcolon ·.1)]
      exact Trie.modifyChild_congr (ih (hchild _))

/-! ## Searches -/

/-- The first loop of `matchNode`. -/
def searchLiteral (go : Node H → StringMap → Bool × StringMap) (seg : Bytes) :
    List (Node H) → StringMap → Bool × StringMap
  | [], params => (false, params)
  | c :: cs, params =>
    if ¬ c.data.isParam ∧ c.data.segment = seg then
      let r := go c params
      if r.1 then r else searchLiteral go seg cs r.2
    else searchLiteral go seg cs params

/-- The second loop of `matchNode`. -/
def searchParam (go : Node H → StringMap → Bool × StringMap) (seg : Bytes) :
    List (Node H) → StringMap → Bool × StringMap
  | [], params => (false, params)
  | c :: cs, params =>
    if c.data.isParam then
      let r := go c (params.insert c.data.paramName seg)
      if r.1 then r else searchParam go seg cs (r.2.erase c.data.paramName)
    else searchParam go seg cs params

/-- `matchNode`: whether a route matches, and the parameters. -/
def matchNode (methodMask : UInt8) : List Bytes → Node H → StringMap → Bool × StringMap
  | [], node, params => ((node.data.handlers.handlerFor methodMask).isSome, params)
  | seg :: segs, node, params =>
    let r := searchLiteral (matchNode methodMask segs) seg node.children params
    if r.1 then r else searchParam (matchNode methodMask segs) seg node.children r.2

/-- The child that the walks of `onRequest` go to. -/
def nextNode (seg : Bytes) (cur : Node H) : Option (Node H) :=
  (cur.children.find? fun c => decide (¬ c.data.isParam ∧ c.data.segment = seg)).or
    (cur.children.find? fun c => c.data.isParam)

/-- The walks of `onRequest`: where they end, and whether every segment found a child. -/
def walk : List Bytes → Node H → Node H × Bool
  | [], cur => (cur, true)
  | seg :: segs, cur =>
    match cur.nextNode seg with
    | some c => walk segs c
    | none => (cur, false)

end Node

end XNetty
